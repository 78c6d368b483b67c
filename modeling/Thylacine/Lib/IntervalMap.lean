import Mathlib.Data.List.Basic
import Mathlib.Order.Lattice

/-!
# Interval Maps

A partial map on a linear order, kept as a list of **pieces**: each covers a half-open interval,
shows a value at each of its points, and can be cut. A list of pieces is `Sorted` if they are
non-empty, disjoint and ascending; `view` is the map it stands for.

## Main results

* `view_carve`: a range is cut out of all pieces, and something put in its place.
* `view_fuse`, `view_cut`: two pieces that meet are made one, and one piece is cut in two.
* `Sorted.insert`, `view_insert`: a new piece in a gap.
* `Sorted.exists_split`: the pieces before, in and after a range.
-/

namespace IntervalMap

open List
open Option (none_or or_none some_or)

variable {α β γ δ : Type*} [LinearOrder α]

/-- What can be asked of a piece. Cutting keeps the value at each point. -/
structure Pieces (α β γ : Type*) [LinearOrder α] where
  lo : β → α
  hi : β → α
  val : β → α → γ
  cut : β → α → α → β
  lo_cut : ∀ x a b, lo (cut x a b) = a
  hi_cut : ∀ x a b, hi (cut x a b) = b
  val_cut : ∀ x a b p, val (cut x a b) p = val x p

namespace Pieces

variable (P : Pieces α β γ)

/-- The point lies in the piece. -/
def Covers (x : β) (p : α) : Prop := P.lo x ≤ p ∧ p < P.hi x

instance (x : β) (p : α) : Decidable (P.Covers x p) := inferInstanceAs (Decidable (_ ∧ _))

/-- What a piece shows at a point. -/
def shows (x : β) (p : α) : Option γ := if P.Covers x p then some (P.val x p) else none

/-- The map that a list of pieces stands for. -/
def view (xs : List β) (p : α) : Option γ := xs.findSome? (P.shows · p)

/-- Non-empty, disjoint, ascending. -/
structure Sorted (xs : List β) : Prop where
  nonempty : ∀ x ∈ xs, P.lo x < P.hi x
  apart : xs.Pairwise fun x y => P.hi x ≤ P.lo y

/-- The piece does not meet the range from `a` to `b`. -/
def Off (a b : α) (x : β) : Prop := P.hi x ≤ a ∨ b ≤ P.lo x

instance (a b : α) (x : β) : Decidable (P.Off a b x) := inferInstanceAs (Decidable (_ ∨ _))

/-- The part of the piece in the range. -/
def clip (a b : α) (x : β) : β := P.cut x (max (P.lo x) a) (min (P.hi x) b)

/-- Cut the range out of a piece, and put something in its place. -/
def carve (a b : α) (inner : β → List β) (x : β) : List β :=
  if P.Off a b x then [x]
  else (if P.lo x < a then [P.cut x (P.lo x) a] else []) ++ inner (P.clip a b x) ++
    (if b < P.hi x then [P.cut x b (P.hi x)] else [])

variable {P} {x y z : β} {xs ys zs : List β} {a b p : α} {ds : List δ} {f : δ → β}
  {inner : β → List β}

/-! ### Views -/

@[simp] theorem view_nil : P.view [] p = none := rfl

theorem view_cons : P.view (x :: xs) p = (P.shows x p).or (P.view xs p) := by
  rw [view, findSome?_cons]
  cases P.shows x p <;> rfl

theorem view_append : P.view (xs ++ ys) p = (P.view xs p).or (P.view ys p) := findSome?_append

@[simp] theorem view_singleton : P.view [x] p = P.shows x p := by rw [view_cons, view_nil, or_none]

theorem shows_of_covers (h : P.Covers x p) : P.shows x p = some (P.val x p) := if_pos h

theorem shows_of_not_covers (h : ¬ P.Covers x p) : P.shows x p = none := if_neg h

theorem view_eq_none (h : ∀ x ∈ xs, ¬ P.Covers x p) : P.view xs p = none :=
  findSome?_eq_none_iff.mpr fun x hx => shows_of_not_covers (h x hx)

theorem view_flatMap (f : δ → List β) (ds : List δ) :
    P.view (ds.flatMap f) p = ds.findSome? fun d => P.view (f d) p := by
  induction ds with
  | nil => rfl
  | cons d ds ih =>
    rw [flatMap_cons, view_append, ih, findSome?_cons]
    cases P.view (f d) p <;> rfl

theorem findSome_congr {f g : δ → Option γ} (h : ∀ d ∈ ds, f d = g d) :
    ds.findSome? f = ds.findSome? g := by
  induction ds with
  | nil => rfl
  | cons d ds ih =>
    rw [findSome?_cons, findSome?_cons, h d mem_cons_self,
      ih fun e he => h e (mem_cons_of_mem d he)]

/-- A change of a point's pieces changes what is seen there. -/
theorem view_map {g : δ → β} {r : γ → γ} (h : ∀ d ∈ ds, P.shows (g d) p = (P.shows (f d) p).map r) :
    P.view (ds.map g) p = (P.view (ds.map f) p).map r := by
  induction ds with
  | nil => rfl
  | cons d ds ih =>
    rw [map_cons, map_cons, view_cons, view_cons, h d mem_cons_self,
      ih fun d' hd' => h d' (mem_cons_of_mem d hd')]
    cases P.shows (f d) p <;> rfl

/-- A point of a sorted list is in one piece at most. -/
theorem Sorted.view_of_mem (h : P.Sorted xs) (hx : x ∈ xs) (hc : P.Covers x p) :
    P.view xs p = some (P.val x p) := by
  obtain ⟨ys, zs, rfl⟩ := append_of_mem hx
  have hbefore : P.view ys p = none := by
    refine view_eq_none fun y hy hcy => ?_
    have hle := (pairwise_append.mp h.apart).2.2 y hy x mem_cons_self
    exact absurd (hcy.2.trans_le (hle.trans hc.1)) (lt_irrefl p)
  rw [view_append, view_cons, hbefore, shows_of_covers hc]
  rfl

/-! ### Sorted lists -/

theorem Sorted.nil : P.Sorted [] := ⟨nofun, .nil⟩

theorem Sorted.sublist (h : P.Sorted xs) (hsub : ys.Sublist xs) : P.Sorted ys :=
  ⟨fun x hx => h.nonempty x (hsub.subset hx), h.apart.sublist hsub⟩

theorem Sorted.append (hx : P.Sorted xs) (hy : P.Sorted ys)
    (h : ∀ x ∈ xs, ∀ y ∈ ys, P.hi x ≤ P.lo y) : P.Sorted (xs ++ ys) := by
  refine ⟨fun x hmem => ?_, pairwise_append.mpr ⟨hx.apart, hy.apart, h⟩⟩
  exact (mem_append.mp hmem).elim (hx.nonempty x) (hy.nonempty x)

theorem Sorted.singleton (h : P.lo x < P.hi x) : P.Sorted [x] :=
  ⟨fun _ hy => mem_singleton.mp hy ▸ h, pairwise_singleton _ _⟩

/-- The pieces of the list lie in the interval of `x`. -/
def Inside (x : β) (xs : List β) : Prop := ∀ y ∈ xs, P.lo x ≤ P.lo y ∧ P.hi y ≤ P.hi x

/-- A piece fits between those before and after it. -/
theorem Sorted.insert (h : P.Sorted (ys ++ zs)) (hx : P.lo x < P.hi x)
    (hys : ∀ y ∈ ys, P.hi y ≤ P.lo x) (hzs : ∀ z ∈ zs, P.hi x ≤ P.lo z) :
    P.Sorted (ys ++ x :: zs) := by
  have hsplit := pairwise_append.mp h.apart
  refine (h.sublist (sublist_append_left ..)).append ?_ fun y hy w hw => ?_
  · refine (singleton hx).append (h.sublist (sublist_append_right ..)) ?_
    intro w hw z hz
    obtain rfl := mem_singleton.mp hw
    exact hzs z hz
  · rcases mem_cons.mp hw with rfl | hw
    · exact hys y hy
    · exact hsplit.2.2 y hy w hw

/-- What is seen after a piece was put in. -/
theorem view_insert (hys : ∀ y ∈ ys, P.hi y ≤ P.lo x) :
    P.view (ys ++ x :: zs) p = (P.shows x p).or (P.view (ys ++ zs) p) := by
  rw [view_append, view_cons, view_append]
  by_cases hc : P.Covers x p
  · have hnone : P.view ys p = none := view_eq_none fun y hy hcy =>
      absurd (hcy.2.trans_le ((hys y hy).trans hc.1)) (lt_irrefl p)
    rw [hnone]
    rfl
  · rw [shows_of_not_covers hc]
    rfl

/-- The same, right after another piece. -/
theorem view_insert_after (hys : ∀ w ∈ ys, P.hi w ≤ P.lo y) (hx : P.hi x ≤ P.lo y) :
    P.view (ys ++ x :: y :: zs) p = (P.shows y p).or (P.view (ys ++ x :: zs) p) := by
  have hview : P.view (ys ++ [x] ++ y :: zs) p = (P.shows y p).or (P.view (ys ++ [x] ++ zs) p) :=
    view_insert (forall_mem_append.mpr ⟨hys, forall_mem_singleton.mpr hx⟩)
  simpa using hview

/-! ### Cutting a range -/

theorem carve_of_off (h : P.Off a b x) (inner : β → List β) : P.carve a b inner x = [x] := if_pos h

theorem carve_of_not_off (h : ¬ P.Off a b x) (inner : β → List β) : P.carve a b inner x =
      (if P.lo x < a then [P.cut x (P.lo x) a] else []) ++ inner (P.clip a b x) ++
      (if b < P.hi x then [P.cut x b (P.hi x)] else []) := if_neg h

/-- A piece that a range meets, with nothing put in. -/
theorem carve_nil_of_not_off (h : ¬ P.Off a b x) : P.carve a b (fun _ => []) x =
      (if P.lo x < a then [P.cut x (P.lo x) a] else []) ++
      (if b < P.hi x then [P.cut x b (P.hi x)] else []) := by
  rw [carve_of_not_off h, append_nil]

theorem shows_cut : P.shows (P.cut x a b) p = if a ≤ p ∧ p < b then some (P.val x p) else none := by
  simp only [shows, Covers, P.lo_cut, P.hi_cut, P.val_cut]

/-- The part from `a` to `b`, if there is one. -/
theorem view_part : P.view (if a < b then [P.cut x a b] else []) p =
    if a ≤ p ∧ p < b then some (P.val x p) else none := by
  split_ifs with hab hp hp
  · rw [view_singleton, shows_cut, if_pos hp]
  · rw [view_singleton, shows_cut, if_neg hp]
  · exact absurd (hp.1.trans_lt hp.2) hab
  · rfl

/-- What one piece shows after the range was cut out. -/
theorem view_carve_one (hin : P.Inside (P.clip a b x) (inner (P.clip a b x))) :
    P.view (P.carve a b inner x) p = if a ≤ p ∧ p < b then
      (if P.Off a b x then none else P.view (inner (P.clip a b x)) p)
      else P.shows x p := by
  by_cases hoff : P.Off a b x
  · rw [carve_of_off hoff, view_singleton]
    split_ifs with hp
    · refine shows_of_not_covers fun hc => ?_
      rcases hoff with h | h
      · exact absurd (hc.2.trans_le (h.trans hp.1)) (lt_irrefl p)
      · exact absurd (hp.2.trans_le (h.trans hc.1)) (lt_irrefl p)
    · rfl
  · rw [carve_of_not_off hoff, view_append, view_append, view_part, view_part, if_neg hoff]
    rw [Off, not_or, not_le, not_le] at hoff
    by_cases hp : a ≤ p ∧ p < b
    · rw [if_pos hp, if_neg fun h => absurd (h.2.trans_le hp.1) (lt_irrefl p),
        if_neg fun h => absurd (hp.2.trans_le h.1) (lt_irrefl p), none_or, or_none]
    · -- the middle shows nothing outside the range
      have hmid : P.view (inner (P.clip a b x)) p = none := by
        refine view_eq_none fun y hy hc => hp ?_
        obtain ⟨hlo, hhi⟩ := hin y hy
        rw [clip, P.lo_cut] at hlo
        rw [clip, P.hi_cut] at hhi
        exact ⟨(le_max_right ..).trans (hlo.trans hc.1),
          hc.2.trans_le (hhi.trans (min_le_right ..))⟩
      rw [if_neg hp, hmid, or_none, shows]
      rw [not_and_or, not_le, not_lt] at hp
      by_cases hleft : P.lo x ≤ p ∧ p < a
      · have hcx : P.Covers x p := ⟨hleft.1, hleft.2.trans hoff.1⟩
        rw [if_pos hleft, if_pos hcx, some_or]
      · rw [if_neg hleft]
        refine if_congr ⟨fun h => ⟨?_, h.2⟩, fun h => ⟨?_, h.2⟩⟩ rfl rfl
        · exact hoff.2.le.trans h.1
        · exact hp.resolve_left fun hpa => hleft ⟨h.1, hpa⟩

/-- **A range was cut out**: outside all is as before, inside is what was put in. -/
theorem view_carve (hin : ∀ x ∈ xs, P.Inside (P.clip a b x) (inner (P.clip a b x))) :
    P.view (xs.flatMap (P.carve a b inner)) p = if a ≤ p ∧ p < b then
      xs.findSome? fun x => if P.Off a b x then none else P.view (inner (P.clip a b x)) p
      else P.view xs p := by
  rw [view_flatMap]
  split_ifs with hp
  · refine findSome_congr fun x hx => ?_
    rw [view_carve_one (hin x hx), if_pos hp]
  · refine findSome_congr fun x hx => ?_
    rw [view_carve_one (hin x hx), if_neg hp]

/-- A range cut out and nothing put in. -/
theorem view_carve_nil : P.view (xs.flatMap (P.carve a b fun _ => [])) p =
    if a ≤ p ∧ p < b then none else P.view xs p := by
  rw [view_carve fun _ _ => nofun]
  refine if_congr .rfl (findSome?_eq_none_iff.mpr fun x _ => ?_) rfl
  split_ifs <;> rfl

/-- What a cut leaves does not meet the range. -/
theorem off_of_mem_carve_nil (hy : y ∈ P.carve a b (fun _ => []) x) : P.Off a b y := by
  by_cases hoff : P.Off a b x
  · rw [carve_of_off hoff, mem_singleton] at hy
    rwa [hy]
  · rw [carve_nil_of_not_off hoff, mem_append] at hy
    rcases hy with hy | hy
    · split_ifs at hy with hlo
      · rw [mem_singleton.mp hy]
        exact .inl (P.hi_cut ..).le
      · cases hy
    · split_ifs at hy with hhi
      · rw [mem_singleton.mp hy]
        exact .inr (P.lo_cut ..).ge
      · cases hy

/-- Pieces off the range are left as they are. -/
theorem flatMap_carve_off (h : ∀ x ∈ xs, P.Off a b x) (inner : β → List β) :
    xs.flatMap (P.carve a b inner) = xs := by
  induction xs with
  | nil => rfl
  | cons x xs ih =>
    rw [flatMap_cons, carve_of_off (h x mem_cons_self),
      ih fun y hy => h y (mem_cons_of_mem x hy), singleton_append]

/-! ### Joining two pieces -/

/-- `z` is `x` and `y`, which meet, in one. -/
structure Joins (x y z : β) : Prop where
  meet : P.hi x = P.lo y
  lo : P.lo z = P.lo x
  hi : P.hi z = P.hi y
  left : ∀ p, P.Covers x p → P.val z p = P.val x p
  right : ∀ p, P.Covers y p → P.val z p = P.val y p

theorem Joins.shows (h : P.Joins x y z) (hx : P.lo x < P.hi x) (hy : P.lo y < P.hi y) (p : α) :
    P.shows z p = (P.shows x p).or (P.shows y p) := by
  by_cases hcx : P.Covers x p
  · have hcz : P.Covers z p := by
      refine ⟨h.lo.trans_le hcx.1, ?_⟩
      rw [h.hi]
      exact hcx.2.trans (h.meet.trans_lt hy)
    rw [shows_of_covers hcz, shows_of_covers hcx, h.left p hcx, some_or]
  · rw [shows_of_not_covers hcx, none_or]
    by_cases hcy : P.Covers y p
    · have hcz : P.Covers z p := by
        refine ⟨?_, hcy.2.trans_eq h.hi.symm⟩
        rw [h.lo]
        exact (hx.le.trans h.meet.le).trans hcy.1
      rw [shows_of_covers hcz, shows_of_covers hcy, h.right p hcy]
    · rw [shows_of_not_covers hcy]
      refine shows_of_not_covers fun hcz => ?_
      rw [Covers, h.lo, h.hi] at hcz
      rcases lt_or_ge p (P.hi x) with hp | hp
      · exact hcx ⟨hcz.1, hp⟩
      · exact hcy ⟨h.meet ▸ hp, hcz.2⟩

/-- **Joining** two pieces changes nothing that is seen. -/
theorem view_fuse (h : P.Joins x y z) (hx : P.lo x < P.hi x) (hy : P.lo y < P.hi y) :
    P.view (ys ++ z :: zs) p = P.view (ys ++ x :: y :: zs) p := by
  rw [view_append, view_append, view_cons, view_cons, view_cons, h.shows hx hy, Option.or_assoc]

/-- The two parts of a piece, joined, are the piece. -/
theorem joins_cut : P.Joins (P.cut x (P.lo x) a) (P.cut x a (P.hi x)) x where
  meet := (P.hi_cut ..).trans (P.lo_cut ..).symm
  lo := (P.lo_cut ..).symm
  hi := (P.hi_cut ..).symm
  left := fun _ _ => (P.val_cut ..).symm
  right := fun _ _ => (P.val_cut ..).symm

/-- **Cutting** a piece in two changes nothing seen. -/
theorem view_cut (hlo : P.lo x < a) (hhi : a < P.hi x) :
    P.view (ys ++ P.cut x (P.lo x) a :: P.cut x a (P.hi x) :: zs) p = P.view (ys ++ x :: zs) p := by
  refine (view_fuse joins_cut ?_ ?_).symm
  · rwa [P.lo_cut, P.hi_cut]
  · rwa [P.lo_cut, P.hi_cut]

/-! ### The pieces of a range -/

/-- A sorted list is the pieces **before** a range, those that **meet** it, those **after**. -/
theorem Sorted.exists_split (h : P.Sorted (ds.map f)) (a b : α) :
    ∃ ls ms rs, ds = ls ++ ms ++ rs ∧ (∀ d ∈ ls, P.hi (f d) ≤ a) ∧
      (∀ d ∈ ms, a < P.hi (f d) ∧ P.lo (f d) < b) ∧
      ∀ d ∈ rs, a < P.hi (f d) ∧ b ≤ P.lo (f d) := by
  induction ds with
  | nil => exact ⟨[], [], [], rfl, nofun, nofun, nofun⟩
  | cons d ds ih =>
    have hlater : ∀ e ∈ ds, P.hi (f d) ≤ P.lo (f e) := fun e he =>
      (pairwise_cons.mp h.apart).1 _ (mem_map_of_mem he)
    have hne : ∀ e ∈ d :: ds, P.lo (f e) < P.hi (f e) := fun e he =>
      h.nonempty _ (mem_map_of_mem he)
    obtain ⟨ls, ms, rs, rfl, hls, hms, hrs⟩ := ih (h.sublist (sublist_cons_self ..))
    rcases le_or_gt (P.hi (f d)) a with hd | hd
    · exact ⟨d :: ls, ms, rs, rfl, forall_mem_cons.mpr ⟨hd, hls⟩, hms, hrs⟩
    -- no later piece ends before the range
    obtain rfl : ls = [] := by
      refine eq_nil_iff_forall_not_mem.mpr fun e he => ?_
      have hmem : e ∈ ls ++ ms ++ rs := by simp [he]
      have hlt := hd.trans_le ((hlater e hmem).trans (hne e (mem_cons_of_mem d hmem)).le)
      exact absurd (hlt.trans_le (hls e he)) (lt_irrefl a)
    rcases lt_or_ge (P.lo (f d)) b with hb | hb
    · exact ⟨[], d :: ms, rs, rfl, nofun, forall_mem_cons.mpr ⟨⟨hd, hb⟩, hms⟩, hrs⟩
    · obtain rfl : ms = [] := by
        refine eq_nil_iff_forall_not_mem.mpr fun e he => ?_
        have hle := hlater e (by simp [he])
        have hlt := (hb.trans_lt (hne d mem_cons_self)).trans_le hle
        exact absurd (hlt.trans (hms e he).2) (lt_irrefl b)
      exact ⟨[], [], d :: rs, rfl, nofun, nofun, forall_mem_cons.mpr ⟨⟨hd, hb⟩, hrs⟩⟩

end Pieces

end IntervalMap
