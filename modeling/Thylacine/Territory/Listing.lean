import Thylacine.Lib.Worklist
import Thylacine.Territory.MountTable

/-!
# Listings

What a mount table is for, without its pointers: a **listing** is the list of the entries in table
order, each with the identity of its mount point. The union at a directory is the entries with
its key, in this order, and the operations of a namespace are edits of the list, `Listing.mount`
and `Listing.unmount`.

`Listing.Rules` is what holds of every listing: a covered entry is its own directory and the only
one of its point, no source is mounted twice at a point, every union has a member that is not
covered, and the mounts form no cycle.
-/

namespace Thylacine

open List Relation Worklist

/-! ### Placing an entry -/

/-- `m` before the first element with `p`, or at the end. -/
def placeAt {α : Type*} (p : α → Bool) (m : α) : List α → List α
  | [] => [m]
  | x :: xs => if p x then m :: x :: xs else x :: placeAt p m xs

section PlaceAt

variable {α β : Type*} {p : α → Bool} {m a : α} {xs rest : List α}

theorem placeAt_of_filter_nil (h : xs.filter p = []) : placeAt p m xs = xs ++ [m] := by
  induction xs with
  | nil => rfl
  | cons x xs ih =>
    rw [filter_cons] at h
    split_ifs at h with hx
    rw [placeAt, if_neg hx, ih h, cons_append]

theorem placeAt_of_filter_cons (h : xs.filter p = a :: rest) :
    ∃ ys zs, xs = ys ++ a :: zs ∧ ys.filter p = [] ∧ placeAt p m xs = ys ++ m :: a :: zs := by
  induction xs with
  | nil => cases h
  | cons x xs ih =>
    rw [filter_cons] at h
    split_ifs at h with hx
    · obtain rfl := (cons.inj h).1
      exact ⟨[], xs, rfl, rfl, by rw [placeAt, if_pos hx, nil_append]⟩
    · obtain ⟨ys, zs, rfl, hys, hplace⟩ := ih h
      refine ⟨x :: ys, zs, rfl, by rw [filter_cons, if_neg hx, hys], ?_⟩
      rw [placeAt, if_neg hx, hplace, cons_append]

theorem placeAt_perm (p : α → Bool) (m : α) (xs : List α) : (placeAt p m xs).Perm (m :: xs) := by
  induction xs with
  | nil => exact .refl _
  | cons x xs ih =>
    rw [placeAt]
    split_ifs
    · exact .refl _
    · exact (ih.cons x).trans (.swap m x xs)

theorem map_placeAt {f : α → β} {q : β → Bool} (h : ∀ x ∈ xs, q (f x) = p x) :
    (placeAt p m xs).map f = placeAt q (f m) (xs.map f) := by
  induction xs with
  | nil => rfl
  | cons x xs ih =>
    rw [placeAt, map_cons, placeAt, h x mem_cons_self]
    split_ifs
    · rfl
    · rw [map_cons, ih fun y hy => h y (mem_cons_of_mem x hy)]

theorem filter_placeAt (hm : p m = true) : (placeAt p m xs).filter p = m :: xs.filter p := by
  induction xs with
  | nil => rw [placeAt, filter_cons_of_pos hm]
  | cons x xs ih =>
    rw [placeAt]
    split_ifs with hx
    · rw [filter_cons_of_pos hm]
    · rw [filter_cons_of_neg hx, filter_cons_of_neg hx, ih]

theorem filter_placeAt_of_neg {q : α → Bool} (hm : ¬ q m = true) :
    (placeAt p m xs).filter q = xs.filter q := by
  induction xs with
  | nil => rw [placeAt, filter_cons_of_neg hm]
  | cons x xs ih =>
    rw [placeAt]
    split_ifs
    · rw [filter_cons_of_neg hm]
    · rw [filter_cons, filter_cons, ih]

end PlaceAt

/-- A file's device instance: `dc` and `devno`, with `devno_per_walker` only `dc`. -/
def OnInstance (s : Spoor) (dc : UInt32) (devno : UInt64) : Prop :=
  dc = s.key.dc ∧ (s.devnoPerWalker = true ∨ devno = s.key.devno)

/-- An entry as a walk sees it. -/
structure MountEntry where
  key : MKey
  source : SpoorRef
  path : Option PathRef
  flags : UInt32
  deriving DecidableEq, Repr

namespace MountEntry

/-- The entry of the covered directory of a union. -/
def covered (e : MountEntry) : Bool := hasFlag e.flags mcovered

/-- The entry of this source at this point. -/
def isPair (k : MKey) (source : SpoorRef) (e : MountEntry) : Bool := e.key = k && e.source = source

end MountEntry

abbrev Listing := List MountEntry

namespace Listing

variable (spoors : SpoorRef → Spoor)

section

variable (L : Listing)

/-- The entries at a point, in search order. -/
def seq (k : MKey) : Listing := L.filter fun e => e.key = k

/-- Puts an entry before those of its point, or last. -/
def put (e : MountEntry) (before : Bool) : Listing :=
  if before then placeAt (fun x => x.key = e.key) e L else L ++ [e]

/-- The listing after a mount of `source`, given room. -/
def mount (source mountpoint : SpoorRef) (flags : UInt32) : Listing :=
  let mp := spoors mountpoint
  let e : MountEntry := ⟨mp.key, source, mp.path, flags⟩
  let cov : MountEntry := ⟨mp.key, mountpoint, mp.path, mcovered⟩
  let ordered := hasFlag flags (mbefore ||| mafter)
  if hasFlag flags mrepl then (L.filter fun x => x.key ≠ mp.key) ++ [e]
  else if L.any (·.isPair mp.key source) then
    if ordered then put (L.filter fun x => !x.isPair mp.key source) e (hasFlag flags mbefore)
    else L.map fun x => if x.isPair mp.key source then { x with flags := flags } else x
  else if ordered && mp.isDir && (L.seq mp.key).isEmpty then
    if hasFlag flags mbefore then L ++ [e, cov] else L ++ [cov, e]
  else put L e (hasFlag flags mbefore)

/-- What a mount leaves before it puts its entry in. -/
def kept (k : MKey) (source : SpoorRef) (flags : UInt32) : Listing :=
  if hasFlag flags mrepl then L.filter fun x => x.key ≠ k else L.filter fun x => !x.isPair k source

/-- What a mount puts in, with the covered directory of a new union. -/
def install (union : Bool) (source mountpoint : SpoorRef) (flags : UInt32) : Listing :=
  let mp := spoors mountpoint
  let e : MountEntry := ⟨mp.key, source, mp.path, flags⟩
  let cov : MountEntry := ⟨mp.key, mountpoint, mp.path, mcovered⟩
  if union then if hasFlag flags mbefore then L ++ [e, cov] else L ++ [cov, e]
  else put L e (hasFlag flags mbefore)

/-- An unmount where something is mounted: the first member not covered goes, and what is left if
all of that is covered. -/
def unmount (k : MKey) : Listing :=
  let rest : Listing := L.eraseP fun e => e.key = k && !e.covered
  if (rest.seq k).any (!·.covered) then rest else rest.filter fun e => e.key ≠ k

/-- The mounts as a graph: from a point to what it hosts. -/
def Edge (a b : MKey) : Prop :=
  ∃ e ∈ L, e.covered = false ∧ e.key = a ∧ (spoors e.source).key = b

end

/-- The device instances of a walk from `root`: the root's and, of a union, its point's, closed
under the entries' sources. -/
inductive Generation (L : Listing) (root : Spoor) : UInt32 → UInt64 → Prop
  | root {dc devno} (hon : OnInstance root dc devno) : Generation L root dc devno
  | union {p dc devno} (hunion : root.unionPoint = some p) (hon : OnInstance (spoors p) dc devno) :
      Generation L root dc devno
  | entry {e dc devno} (he : e ∈ L) (hpoint : Generation L root e.key.dc e.key.devno)
      (hon : OnInstance (spoors e.source) dc devno) : Generation L root dc devno

open Classical in
/-- A new root leaves the entries whose point is in its generation, in their order. -/
noncomputable def shed (L : Listing) (root : Spoor) : Listing :=
  L.filter fun e => Generation spoors L root e.key.dc e.key.devno

/-- The outcomes of a mount, as checked: the source leads to the point, there is no room, or it is
mounted. -/
inductive MountStep (L : Listing) (source mountpoint : SpoorRef) (flags : UInt32) :
    ℤ → Listing → Prop
  | cycle (hpath : ReflTransGen (Edge spoors L) (spoors source).key (spoors mountpoint).key) :
      MountStep L source mountpoint flags (-3) L
  | full (hpath : ¬ ReflTransGen (Edge spoors L) (spoors source).key (spoors mountpoint).key)
      (hfull : pgrpMountCap < (L.mount spoors source mountpoint flags).length) :
      MountStep L source mountpoint flags (-2) L
  | mounted (hpath : ¬ ReflTransGen (Edge spoors L) (spoors source).key (spoors mountpoint).key)
      (hfits : (L.mount spoors source mountpoint flags).length ≤ pgrpMountCap) :
      MountStep L source mountpoint flags 0 (L.mount spoors source mountpoint flags)

/-- The outcomes of `mount`: also a null argument, or no memory. -/
inductive MountCall (L : Listing) (source mountpoint : Option SpoorRef) (flags : UInt32) :
    ℤ → Listing → Prop
  | null (hnull : source = none ∨ mountpoint = none) : MountCall L source mountpoint flags (-1) L
  | nomem : MountCall L source mountpoint flags (-4) L
  | locked {s p rc L'} (hsource : source = some s) (hpoint : mountpoint = some p)
      (hstep : MountStep spoors L s p flags rc L') : MountCall L source mountpoint flags rc L'

/-- Nothing is mounted there, or a member goes. -/
inductive UnmountStep (L : Listing) (k : MKey) : ℤ → Listing → Prop
  | nothing (hnone : L.seq k = []) : UnmountStep L k (-1) L
  | unmounted (hsome : L.seq k ≠ []) : UnmountStep L k 0 (L.unmount k)

/-- The outcomes of a call of `unmount`. -/
inductive UnmountCall (L : Listing) (mountpoint : Option SpoorRef) : ℤ → Listing → Prop
  | null (hnull : mountpoint = none) : UnmountCall L mountpoint (-1) L
  | locked {p rc L'} (hpoint : mountpoint = some p) (hstep : UnmountStep L (spoors p).key rc L') :
      UnmountCall L mountpoint rc L'

/-- The rules of a listing. -/
structure Rules (L : Listing) : Prop where
  covered : ∀ e ∈ L, e.covered = true → e.flags = mcovered ∧ (spoors e.source).key = e.key
  coveredOnce : ∀ k, ((L.seq k).filter (·.covered)).length ≤ 1
  pairs : (L.map fun e => (e.key, e.source)).Nodup
  mounted : ∀ e ∈ L, ∃ x ∈ L, x.key = e.key ∧ x.covered = false
  acyclic : Acyclic (Edge spoors L)

variable {spoors} {L L' : Listing} {e : MountEntry} {k : MKey} {s : SpoorRef}

/-! ### Unions -/

variable {x : MountEntry} {mountpoint source : SpoorRef} {flags : UInt32}

theorem isPair_iff : x.isPair k s = true ↔ x.key = k ∧ x.source = s := by simp [MountEntry.isPair]

theorem isPair_eq_false_iff : x.isPair k s = false ↔ ¬ (x.key = k ∧ x.source = s) := by
  rw [← isPair_iff, Bool.not_eq_true]

theorem mem_seq : e ∈ L.seq k ↔ e ∈ L ∧ e.key = k := by rw [seq, mem_filter, decide_eq_true_iff]

theorem seq_append (L L' : Listing) (k : MKey) : seq (L ++ L') k = L.seq k ++ L'.seq k :=
  filter_append ..

theorem seq_singleton : seq [e] e.key = [e] := filter_cons_of_pos (decide_eq_true rfl)

theorem seq_singleton_of_ne (h : e.key ≠ k) : seq [e] k = [] :=
  filter_cons_of_neg (by simpa using h)

theorem put_perm (L : Listing) (e : MountEntry) (before : Bool) : (put L e before).Perm (e :: L) := by
  rw [put]
  split_ifs
  · exact placeAt_perm ..
  · exact perm_append_singleton e L

theorem seq_put (L : Listing) (e : MountEntry) (before : Bool) :
    (put L e before).seq e.key = if before then e :: L.seq e.key else L.seq e.key ++ [e] := by
  rw [put]
  split_ifs
  · exact filter_placeAt (decide_eq_true rfl)
  · rw [seq_append, seq_singleton]

theorem seq_put_of_ne (h : e.key ≠ k) (before : Bool) : (put L e before).seq k = L.seq k := by
  rw [put]
  split_ifs
  · exact filter_placeAt_of_neg (by simpa using h)
  · rw [seq_append, seq_singleton_of_ne h, append_nil]

theorem put_eq_append {before : Bool} (h : L.seq e.key = []) : put L e before = L ++ [e] := by
  rw [put]
  split_ifs
  · exact placeAt_of_filter_nil h
  · rfl

theorem seq_filter (L : Listing) (p : MountEntry → Bool) (k : MKey) :
    seq (L.filter p) k = (L.seq k).filter p := by
  rw [seq, seq, filter_filter, filter_filter]
  exact filter_congr fun x _ => Bool.and_comm ..

theorem seq_map {f : MountEntry → MountEntry} (hf : ∀ e, (f e).key = e.key) (k : MKey) :
    seq (L.map f) k = (L.seq k).map f := by
  rw [seq, filter_map]
  congr 1
  exact filter_congr fun x _ => by rw [Function.comp_apply, hf]

theorem seq_seq (L : Listing) (k : MKey) : (L.seq k).seq k = L.seq k := by
  rw [seq, seq, filter_filter]
  exact filter_congr fun x _ => Bool.and_self _

theorem put_seq (L : Listing) (e : MountEntry) (before : Bool) :
    (put L e before).seq e.key = put (L.seq e.key) e before := by
  rw [seq_put, put]
  split_ifs
  · cases hseq : L.seq e.key with
    | nil => rfl
    | cons x rest =>
      have hx : x.key = e.key := (mem_seq.mp (hseq ▸ mem_cons_self)).2
      rw [placeAt, if_pos (decide_eq_true hx)]
  · rfl

theorem any_isPair_seq (L : Listing) (k : MKey) (s : SpoorRef) :
    (L.seq k).any (·.isPair k s) = L.any (·.isPair k s) := by
  rw [seq, any_filter]
  congr 1
  funext x
  rw [MountEntry.isPair, ← Bool.and_assoc, Bool.and_self]

/-! ### The rules -/

theorem Edge.of_mem {a b : MKey} (h : ∀ e ∈ L', e.covered = false → e ∈ L) :
    Edge spoors L' a b → Edge spoors L a b :=
  fun ⟨e, he, hcov, hkey, hsrc⟩ => ⟨e, h e he hcov, hcov, hkey, hsrc⟩

theorem Rules.nil : Rules spoors [] where
  covered := nofun
  coveredOnce := fun _ => Nat.zero_le 1
  pairs := nodup_nil
  mounted := nofun
  acyclic := fun a h => by
    obtain ⟨b, -, e, he, -⟩ := TransGen.tail'_iff.mp h
    cases he

section

variable (h : Rules spoors L)
include h

theorem Rules.perm (hperm : L.Perm L') : Rules spoors L' where
  covered := fun e he => h.covered e (hperm.mem_iff.mpr he)
  coveredOnce := fun k => by
    rw [seq, ← ((hperm.filter _).filter _).length_eq]
    exact h.coveredOnce k
  pairs := (hperm.map _).nodup_iff.mp h.pairs
  mounted := fun e he => by
    obtain ⟨x, hx, hrest⟩ := h.mounted e (hperm.mem_iff.mpr he)
    exact ⟨x, hperm.mem_iff.mp hx, hrest⟩
  acyclic := h.acyclic.mono fun _ _ => Edge.of_mem fun _ he _ => hperm.mem_iff.mpr he

/-- Entries may go if every union keeps an uncovered member. -/
theorem Rules.sublist (hsub : L'.Sublist L)
    (hmounted : ∀ e ∈ L', ∃ x ∈ L', x.key = e.key ∧ x.covered = false) : Rules spoors L' where
  covered := fun e he => h.covered e (hsub.subset he)
  coveredOnce := fun k => (((hsub.filter _).filter _).length_le).trans (h.coveredOnce k)
  pairs := h.pairs.sublist (hsub.map _)
  mounted := hmounted
  acyclic := h.acyclic.mono fun _ _ => Edge.of_mem fun _ he _ => hsub.subset he

/-- A filter that treats a point's entries alike keeps the rules. -/
theorem Rules.filter_key (p : MKey → Bool) : Rules spoors (L.filter fun e => p e.key) := by
  refine h.sublist filter_sublist fun e he => ?_
  obtain ⟨he, hp⟩ := mem_filter.mp he
  obtain ⟨x, hx, hkey, hcov⟩ := h.mounted e he
  exact ⟨x, mem_filter.mpr ⟨hx, by rwa [hkey]⟩, hkey, hcov⟩

theorem Rules.shed (root : Spoor) : Rules spoors (L.shed spoors root) := by
  classical
  exact h.filter_key fun k => Generation spoors L root k.dc k.devno

end

theorem edge_cons {a b : MKey} (he : e.covered = false) :
    Edge spoors (e :: L) a b ↔ addEdge (Edge spoors L) e.key (spoors e.source).key a b := by
  constructor
  · rintro ⟨x, hx, hcov, rfl, rfl⟩
    rcases mem_cons.mp hx with rfl | hx
    · exact .inr ⟨rfl, rfl⟩
    · exact .inl ⟨x, hx, hcov, rfl, rfl⟩
  · rintro (⟨x, hx, hrest⟩ | ⟨rfl, rfl⟩)
    · exact ⟨x, mem_cons_of_mem e hx, hrest⟩
    · exact ⟨e, mem_cons_self, he, rfl, rfl⟩

/-- An entry not covered is no covered one of a union. -/
theorem covered_seq_cons (he : e.covered = false) (k : MKey) :
    (seq (e :: L) k).filter (·.covered) = (L.seq k).filter (·.covered) := by
  rw [seq, seq, filter_filter, filter_filter, filter_cons_of_neg (by simp [he])]

theorem Rules.pairs_cons (h : Rules spoors L) (hpair : ∀ x ∈ L, x.isPair e.key e.source = false) :
    ((e :: L).map fun x => (x.key, x.source)).Nodup := by
  refine nodup_cons.mpr ⟨fun hmem => ?_, h.pairs⟩
  obtain ⟨x, hx, heq⟩ := mem_map.mp hmem
  have := hpair x hx
  simp only [MountEntry.isPair, Prod.mk.injEq] at this heq
  simp [heq.1, heq.2] at this

/-- A new entry that closes no cycle keeps the rules. -/
theorem Rules.cons (h : Rules spoors L) (he : e.covered = false)
    (hpair : ∀ x ∈ L, x.isPair e.key e.source = false)
    (hpath : ¬ ReflTransGen (Edge spoors L) (spoors e.source).key e.key) :
    Rules spoors (e :: L) where
  covered := forall_mem_cons.mpr ⟨fun hcov => absurd (he.symm.trans hcov) nofun, h.covered⟩
  coveredOnce := fun k => by
    rw [covered_seq_cons he]
    exact h.coveredOnce k
  pairs := h.pairs_cons hpair
  mounted := by
    refine forall_mem_cons.mpr ⟨⟨e, mem_cons_self, rfl, he⟩, fun x hx => ?_⟩
    obtain ⟨y, hy, hrest⟩ := h.mounted x hx
    exact ⟨y, mem_cons_of_mem e hy, hrest⟩
  acyclic := ((acyclic_addEdge h.acyclic).mpr hpath).mono fun _ _ => (edge_cons he).mp

/-- The covered entry of a union that has no other. -/
theorem Rules.cons_covered (h : Rules spoors L) (he : e.flags = mcovered)
    (hself : (spoors e.source).key = e.key) (hone : ∀ x ∈ L, x.key = e.key → x.covered = false)
    (hpair : ∀ x ∈ L, x.isPair e.key e.source = false) (hin : ∃ x ∈ L, x.key = e.key) :
    Rules spoors (e :: L) where
  covered := forall_mem_cons.mpr ⟨fun _ => ⟨he, hself⟩, h.covered⟩
  coveredOnce := fun k => by
    by_cases hk : e.key = k
    · have hnil : (L.seq k).filter (·.covered) = [] := by
        refine filter_eq_nil_iff.mpr fun x hx => ?_
        obtain ⟨hx, hkey⟩ := mem_seq.mp hx
        rw [hone x hx (hkey.trans hk.symm)]
        nofun
      rw [show seq (e :: L) k = e :: L.seq k from filter_cons_of_pos (by simpa using hk),
        filter_cons]
      split_ifs
      · rw [hnil, length_singleton]
      · rw [hnil]
        exact Nat.zero_le 1
    · rw [show seq (e :: L) k = L.seq k from filter_cons_of_neg (by simpa using hk)]
      exact h.coveredOnce k
  pairs := h.pairs_cons hpair
  mounted := by
    have hold : ∀ x ∈ L, ∃ y ∈ e :: L, y.key = x.key ∧ y.covered = false := fun x hx => by
      obtain ⟨y, hy, hrest⟩ := h.mounted x hx
      exact ⟨y, mem_cons_of_mem e hy, hrest⟩
    obtain ⟨x, hx, hkey⟩ := hin
    exact forall_mem_cons.mpr ⟨hkey ▸ hold x hx, hold⟩
  acyclic := h.acyclic.mono fun _ _ => Edge.of_mem fun x hx hcov => by
    rcases mem_cons.mp hx with rfl | hx
    · rw [MountEntry.covered, he] at hcov
      exact absurd hcov (by decide)
    · exact hx

/-! ### Mount -/

/-- A pair's entry, with other flags or another name. -/
theorem Rules.replace (h : Rules spoors (x :: L)) (hx : x.covered = false)
    (he : e.covered = false) (hkey : e.key = x.key) (hsource : e.source = x.source) :
    Rules spoors (e :: L) where
  covered := fun y hy hcov => by
    rcases mem_cons.mp hy with rfl | hy
    · exact absurd (he.symm.trans hcov) nofun
    · exact h.covered y (mem_cons_of_mem x hy) hcov
  coveredOnce := fun k => by
    rw [covered_seq_cons he, ← covered_seq_cons hx]
    exact h.coveredOnce k
  pairs := by
    rw [map_cons, hkey, hsource]
    exact h.pairs
  mounted := fun y hy => by
    have hnew {y : MountEntry} (hy : y ∈ x :: L) :
        ∃ z ∈ e :: L, z.key = y.key ∧ z.covered = false := by
      obtain ⟨z, hz, hzkey, hzcov⟩ := h.mounted y hy
      rcases mem_cons.mp hz with rfl | hz
      · exact ⟨e, mem_cons_self, hkey.trans hzkey, he⟩
      · exact ⟨z, mem_cons_of_mem e hz, hzkey, hzcov⟩
    rcases mem_cons.mp hy with rfl | hy
    · exact ⟨y, mem_cons_self, rfl, he⟩
    · exact hnew (mem_cons_of_mem x hy)
  acyclic := h.acyclic.mono fun a b hedge => by
    rw [edge_cons hx]
    rw [edge_cons he, hkey, hsource] at hedge
    exact hedge

/-- There is one entry of a pair at most. -/
theorem Rules.filter_isPair (h : Rules spoors L) (hx : x ∈ L)
    (hpair : x.isPair k s = true) : L.filter (·.isPair k s) = [x] := by
  have heq : ∀ y ∈ L.filter (·.isPair k s), y = x := fun y hy => by
    obtain ⟨hy, hyp⟩ := mem_filter.mp hy
    rw [isPair_iff] at hyp hpair
    refine inj_on_of_nodup_map h.pairs hy hx ?_
    rw [hyp.1, hyp.2, hpair.1, hpair.2]
  have hnd : (L.filter (·.isPair k s)).Nodup := (h.pairs.of_map).filter _
  have hmem : x ∈ L.filter (·.isPair k s) := mem_filter.mpr ⟨hx, hpair⟩
  match hl : L.filter (·.isPair k s) with
  | [] => rw [hl] at hmem; cases hmem
  | [y] => rw [hl, heq y (hl ▸ mem_cons_self)]
  | y :: z :: rest =>
    rw [hl] at hnd heq
    have hyz : y = z := (heq y (by simp)).trans (heq z (by simp)).symm
    exact absurd (hyz ▸ mem_cons_self) (nodup_cons.mp hnd).1

theorem Rules.perm_pair (h : Rules spoors L) (hx : x ∈ L)
    (hpair : x.isPair k s = true) : L.Perm (x :: L.filter fun y => !y.isPair k s) := by
  have hsplit := filter_append_perm (·.isPair k s) L
  rw [h.filter_isPair hx hpair] at hsplit
  exact hsplit.symm

/-- A union's first mount, with the directory it covers. -/
theorem Rules.union (h : Rules spoors (e :: L)) (he : e.covered = false)
    (hne : (spoors e.source).key ≠ (spoors mountpoint).key) (hnone : L.seq e.key = [])
    {path : Option PathRef} (hkey : (spoors mountpoint).key = e.key) :
    Rules spoors (⟨e.key, mountpoint, path, mcovered⟩ :: e :: L) := by
  have hin : ∀ x ∈ e :: L, x.key = e.key → x = e := fun x hx hxk => by
    rcases mem_cons.mp hx with rfl | hx
    · rfl
    · exact absurd (hnone ▸ mem_seq.mpr ⟨hx, hxk⟩) not_mem_nil
  refine h.cons_covered rfl hkey (fun x hx hxk => hin x hx hxk ▸ he) (fun x hx => ?_)
    ⟨e, mem_cons_self, rfl⟩
  rw [isPair_eq_false_iff]
  rintro ⟨hxk, hxs⟩
  obtain rfl := hin x hx hxk
  exact hne (congrArg (fun s => (spoors s).key) hxs)

theorem perm_append_pair (L : Listing) (x y : MountEntry) : (x :: y :: L).Perm (L ++ [x, y]) :=
  (perm_append_comm : ([x, y] ++ L).Perm _)

/-- A mount that closes no cycle **keeps the rules**. -/
theorem Rules.mount (h : Rules spoors L) (hflags : hasFlag flags mcovered = false)
    (hpath : ¬ ReflTransGen (Edge spoors L) (spoors source).key (spoors mountpoint).key) :
    Rules spoors (L.mount spoors source mountpoint flags) := by
  rw [Listing.mount]
  set k := (spoors mountpoint).key
  have hne : (spoors source).key ≠ k := fun heq => hpath (heq ▸ .refl)
  have hnew (k : MKey) (path : Option PathRef) :
      MountEntry.covered ⟨k, source, path, flags⟩ = false := hflags
  -- an entry of the pair is not the covered one, whose source has the key of the point
  have huncov {x : MountEntry} (hx : x ∈ L) (hpair : x.isPair k source = true) :
      x.covered = false := by
    refine Bool.eq_false_iff.mpr fun hcov => hne ?_
    obtain ⟨hkey, hsource⟩ := isPair_iff.mp hpair
    rw [← hkey, ← hsource]
    exact (h.covered x hx hcov).2
  have hsub {M : Listing} (hM : M ⊆ L) : ¬ ReflTransGen (Edge spoors M) (spoors source).key k :=
    fun hp => hpath (hp.lift id fun _ _ => Edge.of_mem fun _ he _ => hM he)
  split_ifs with hrepl hpair hord hunion hbefore
  · -- in place of all members
    refine ((h.filter_key fun k' => k' ≠ k).cons (hnew _ _) (fun x hx => ?_)
      (hsub filter_sublist.subset)).perm (perm_append_singleton _ _).symm
    have hxk : x.key ≠ k := of_decide_eq_true (mem_filter.mp hx).2
    rw [isPair_eq_false_iff]
    exact fun heq => hxk heq.1
  · -- the pair moves
    obtain ⟨x, hx, hxp⟩ := any_eq_true.mp hpair
    obtain ⟨hxkey, hxsource⟩ := isPair_iff.mp hxp
    exact ((h.perm (h.perm_pair hx hxp)).replace (huncov hx hxp) (hnew _ _) hxkey.symm
      hxsource.symm).perm (put_perm ..).symm
  · -- the pair stays where it is
    obtain ⟨x, hx, hxp⟩ := any_eq_true.mp hpair
    have hmap := (h.perm_pair hx hxp).map fun y =>
      if y.isPair k source then { y with flags := flags } else y
    rw [map_cons, if_pos hxp] at hmap
    have hid : (L.filter fun y => !y.isPair k source).map (fun y =>
        if y.isPair k source then { y with flags := flags } else y) =
        L.filter fun y => !y.isPair k source := by
      refine (map_congr_left fun y hy => ?_).trans (map_id _)
      have hyp := (mem_filter.mp hy).2
      rw [Bool.not_eq_true'] at hyp
      rw [if_neg (by rw [hyp]; nofun)]
      rfl
    rw [hid] at hmap
    exact ((h.perm (h.perm_pair hx hxp)).replace (e := { x with flags := flags }) (huncov hx hxp)
      hflags rfl rfl).perm hmap.symm
  all_goals
    have hno : ∀ x ∈ L, x.isPair k source = false := fun x hx =>
      Bool.eq_false_iff.mpr fun hxp => hpair (any_eq_true.mpr ⟨x, hx, hxp⟩)
    have hcons : Rules spoors (⟨k, source, (spoors mountpoint).path, flags⟩ :: L) :=
      h.cons (hnew _ _) hno hpath
  · exact (hcons.union (hnew _ _) hne (isEmpty_iff.mp (Bool.and_eq_true_iff.mp hunion).2) rfl).perm
      ((Perm.swap ..).trans (perm_append_pair L _ _))
  · exact (hcons.union (hnew _ _) hne (isEmpty_iff.mp (Bool.and_eq_true_iff.mp hunion).2) rfl).perm
      (perm_append_pair L _ _)
  · exact hcons.perm (put_perm ..).symm

/-- But for a pair whose flags converge, a mount takes entries away and puts some in. -/
theorem mount_eq_install
    (hstay : hasFlag flags mrepl = false → L.any (·.isPair (spoors mountpoint).key source) = true →
      hasFlag flags (mbefore ||| mafter) = true) :
    L.mount spoors source mountpoint flags =
      (L.kept (spoors mountpoint).key source flags).install spoors
      (!hasFlag flags mrepl && hasFlag flags (mbefore ||| mafter) && (spoors mountpoint).isDir &&
      (L.seq (spoors mountpoint).key).isEmpty) source mountpoint flags := by
  rw [mount, kept, install]
  cases hrepl : hasFlag flags mrepl with
  | true =>
    have hnil : seq (L.filter fun x => x.key ≠ (spoors mountpoint).key) (spoors mountpoint).key =
        [] := by
      rw [seq_filter]
      exact filter_eq_nil_iff.mpr fun x hx => by simpa using (mem_seq.mp hx).2
    exact (put_eq_append hnil).symm
  | false =>
    cases hany : L.any (·.isPair (spoors mountpoint).key source) with
    | true =>
      obtain ⟨x, hx, hxp⟩ := any_eq_true.mp hany
      have hne : (L.seq (spoors mountpoint).key).isEmpty = false :=
        isEmpty_eq_false_iff_exists_mem.mpr ⟨x, mem_seq.mpr ⟨hx, (isPair_iff.mp hxp).1⟩⟩
      simp only [hne, hstay hrepl hany, Bool.and_false, Bool.false_eq_true, if_true, if_false]
    | false =>
      have hid : (L.filter fun x => !x.isPair (spoors mountpoint).key source) = L :=
        filter_eq_self.mpr fun x hx => by
          rw [Bool.not_eq_true', Bool.eq_false_iff]
          exact fun hxp => absurd (any_eq_true.mpr ⟨x, hx, hxp⟩) (by rw [hany]; nofun)
      simp only [hid, Bool.not_false, Bool.true_and, Bool.false_eq_true, if_false]

theorem length_install (L : Listing) (union : Bool) (source mountpoint : SpoorRef)
    (flags : UInt32) :
    (L.install spoors union source mountpoint flags).length =
      L.length + if union then 2 else 1 := by
  rw [install]
  split_ifs
  · exact length_append
  · exact length_append
  · rw [(put_perm ..).length_eq, length_cons]

/-- The union after a mount is the mount on the union. -/
theorem seq_mount (L : Listing) (source mountpoint : SpoorRef) (flags : UInt32) :
    (L.mount spoors source mountpoint flags).seq (spoors mountpoint).key =
      (L.seq (spoors mountpoint).key).mount spoors source mountpoint flags := by
  have hsingle (e : MountEntry) (he : e.key = (spoors mountpoint).key) :
      seq [e] (spoors mountpoint).key = [e] := he ▸ seq_singleton
  simp only [mount, any_isPair_seq, seq_seq]
  split_ifs
  · rw [seq_append, seq_filter, hsingle _ rfl]
  · exact (put_seq ..).trans (by rw [seq_filter])
  · refine seq_map (fun e => ?_) _
    split_ifs <;> rfl
  · rw [seq_append, ← singleton_append, seq_append, hsingle _ rfl, hsingle _ rfl]
  · rw [seq_append, ← singleton_append, seq_append, hsingle _ rfl, hsingle _ rfl]
  · exact put_seq ..

/-- A mount is not seen at another point. -/
theorem seq_mount_of_ne (hk : (spoors mountpoint).key ≠ k) :
    (L.mount spoors source mountpoint flags).seq k = L.seq k := by
  have hsingle (e : MountEntry) (he : e.key = (spoors mountpoint).key) : seq [e] k = [] :=
    seq_singleton_of_ne (he ▸ hk)
  have hfilter {p : MountEntry → Bool} (hp : ∀ x ∈ L, x.key = k → p x = true) :
      seq (L.filter p) k = L.seq k := by
    rw [seq_filter]
    exact filter_eq_self.mpr fun x hx => hp x (mem_seq.mp hx).1 (mem_seq.mp hx).2
  have hpair {x : MountEntry} (hx : x.key = k) : x.isPair (spoors mountpoint).key source = false :=
    isPair_eq_false_iff.mpr fun h => hk (h.1.symm.trans hx)
  rw [mount]
  split_ifs
  · rw [seq_append, hsingle _ rfl, append_nil, hfilter fun x _ hx => by simpa [hx] using hk.symm]
  · rw [seq_put_of_ne (by exact hk), hfilter fun x _ hx => by rw [hpair hx]; rfl]
  · rw [seq_map fun e => by split_ifs <;> rfl]
    refine (map_congr_left fun x hx => ?_).trans (map_id _)
    rw [if_neg (by rw [hpair (mem_seq.mp hx).2]; nofun)]
    rfl
  · rw [seq_append, ← singleton_append, seq_append, hsingle _ rfl, hsingle _ rfl,
      append_nil, append_nil]
  · rw [seq_append, ← singleton_append, seq_append, hsingle _ rfl, hsingle _ rfl,
      append_nil, append_nil]
  · exact seq_put_of_ne (by exact hk) _

variable (spoors) in
/-- A mount leaves the source in the union. -/
theorem exists_pair_mount (L : Listing) (source mountpoint : SpoorRef) (flags : UInt32) :
    ∃ e ∈ L.mount spoors source mountpoint flags,
      e.isPair (spoors mountpoint).key source = true := by
  have hnew (path : Option PathRef) : MountEntry.isPair (spoors mountpoint).key source
      ⟨(spoors mountpoint).key, source, path, flags⟩ = true := isPair_iff.mpr ⟨rfl, rfl⟩
  rw [mount]
  split_ifs with _ hany
  · exact ⟨_, mem_append_right _ mem_cons_self, hnew _⟩
  · exact ⟨_, (put_perm ..).mem_iff.mpr mem_cons_self, hnew _⟩
  · obtain ⟨x, hx, hxp⟩ := any_eq_true.mp hany
    refine ⟨_, mem_map_of_mem hx, ?_⟩
    rw [if_pos hxp]
    exact hxp
  · exact ⟨_, mem_append_right _ mem_cons_self, hnew _⟩
  · exact ⟨_, mem_append_right _ (mem_cons_of_mem _ mem_cons_self), hnew _⟩
  · exact ⟨_, (put_perm ..).mem_iff.mpr mem_cons_self, hnew _⟩

/-- A mount leaves no union empty. -/
theorem seq_mount_ne_nil (h : L.seq k ≠ []) :
    (L.mount spoors source mountpoint flags).seq k ≠ [] := by
  by_cases hk : (spoors mountpoint).key = k
  · obtain ⟨x, hx, hpair⟩ := exists_pair_mount spoors L source mountpoint flags
    exact ne_nil_of_mem (mem_seq.mpr ⟨hx, (isPair_iff.mp hpair).1.trans hk⟩)
  · rwa [seq_mount_of_ne hk]

/-! ### Unmount -/

theorem eraseP_sublist (k : MKey) : (L.eraseP fun e => e.key = k && !e.covered).Sublist L :=
  List.eraseP_sublist

theorem seq_eraseP (L : Listing) (k : MKey) :
    seq (L.eraseP fun e => e.key = k && !e.covered) k = (L.seq k).eraseP fun e => !e.covered := by
  rw [seq, seq, eraseP_filter]
  simp only [Bool.and_comm]

/-- What is taken away at a point does not show at another. -/
theorem filter_eraseP {q : MountEntry → Bool} (hq : ∀ e, e.key = k → ¬ q e = true) :
    (L.eraseP fun e => e.key = k && !e.covered).filter q = L.filter q := by
  induction L with
  | nil => rfl
  | cons e L ih =>
    rw [eraseP_cons]
    cases hp : decide (e.key = k) && !e.covered with
    | true =>
      rw [Bool.and_eq_true, decide_eq_true_iff] at hp
      rw [cond_true, filter_cons_of_neg (hq e hp.1)]
    | false => rw [cond_false, filter_cons, filter_cons, ih]

theorem seq_unmount (L : Listing) (k : MKey) : (L.unmount k).seq k =
      if ((L.seq k).eraseP (!·.covered)).any (!·.covered) then (L.seq k).eraseP (!·.covered)
      else [] := by
  rw [unmount, seq_eraseP]
  split_ifs
  · exact seq_eraseP L k
  · rw [seq, filter_filter]
    exact filter_eq_nil_iff.mpr fun e _ => by simp

theorem seq_unmount_of_ne {k' : MKey} (h : k' ≠ k) : (L.unmount k).seq k' = L.seq k' := by
  have hq (e : MountEntry) (he : e.key = k) : ¬ decide (e.key = k') = true := by
    rw [he, decide_eq_true_iff]
    exact h.symm
  rw [unmount]
  split_ifs
  · exact filter_eraseP hq
  · rw [seq, filter_filter, seq, ← filter_eraseP hq]
    refine filter_congr fun e _ => ?_
    by_cases he : e.key = k'
    · simp [he, h]
    · simp [he]

/-- An unmount **keeps the rules**. -/
theorem Rules.unmount (h : Rules spoors L) (k : MKey) : Rules spoors (L.unmount k) := by
  rw [Listing.unmount]
  split_ifs with hany
  · refine h.sublist (eraseP_sublist k) fun e he => ?_
    obtain ⟨x, hx, hxcov⟩ := any_eq_true.mp hany
    rw [Bool.not_eq_true'] at hxcov
    by_cases hek : e.key = k
    · exact ⟨x, (mem_seq.mp hx).1, (mem_seq.mp hx).2.trans hek.symm, hxcov⟩
    · obtain ⟨y, hy, hykey, hycov⟩ := h.mounted e ((eraseP_sublist k).subset he)
      refine ⟨y, (mem_eraseP_of_neg ?_).mpr hy, hykey, hycov⟩
      rw [hykey]
      simp [hek]
  · rw [filter_eraseP fun e he => by simp [he]]
    exact h.filter_key fun k' => k' ≠ k

end Listing

end Thylacine
