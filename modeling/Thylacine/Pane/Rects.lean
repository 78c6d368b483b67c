import Mathlib.Algebra.Group.Nat.Defs
import Mathlib.Data.List.Basic
import Mathlib.Order.Lattice

/-!
# Carving Rectangles

`subtract_rects` cuts every piece it still has into the bars around its intersection with the
next hole. Coordinates are `u32`: a sum wraps, except in `contains`, where it saturates.

## Main results

* `subtractRects_exact`: the pieces are disjoint and make up the set difference.
-/

namespace Thylacine.Pane

structure Rect where
  x : ℕ
  y : ℕ
  w : ℕ
  h : ℕ
  deriving DecidableEq, Repr

def add32 (a b : ℕ) : ℕ := (a + b) % 2 ^ 32

def saturatingAdd (a b : ℕ) : ℕ := min (a + b) (2 ^ 32 - 1)

namespace Rect

def zero : Rect := ⟨0, 0, 0, 0⟩

def intersect (p o : Rect) : Rect :=
  let x1 := max p.x o.x
  let y1 := max p.y o.y
  let x2 := min (add32 p.x p.w) (add32 o.x o.w)
  let y2 := min (add32 p.y p.h) (add32 o.y o.h)
  if x2 ≤ x1 ∨ y2 ≤ y1 then zero else ⟨x1, y1, x2 - x1, y2 - y1⟩

def isEmpty (p : Rect) : Bool := p.w == 0 || p.h == 0

def contains (p : Rect) (x y : ℕ) : Bool :=
  p.x ≤ x && x < saturatingAdd p.x p.w && p.y ≤ y && y < saturatingAdd p.y p.h

/-- The right and the bottom edge are below `2 ^ 32`. -/
def Fits (p : Rect) : Prop := p.x + p.w < 2 ^ 32 ∧ p.y + p.h < 2 ^ 32

def Inside (i p : Rect) : Prop :=
  (p.x ≤ i.x ∧ i.x + i.w ≤ p.x + p.w) ∧ p.y ≤ i.y ∧ i.y + i.h ≤ p.y + p.h

end Rect

open List Rect

-- The subtraction of `ℕ` is `saturating_sub`.
def barsAround (outer inner : Rect) : List Rect :=
  if inner.isEmpty then [outer, zero, zero, zero]
  else
    let ox1 := add32 outer.x outer.w
    let oy1 := add32 outer.y outer.h
    let ix1 := add32 inner.x inner.w
    let iy1 := add32 inner.y inner.h
    [⟨outer.x, outer.y, outer.w, inner.y - outer.y⟩, ⟨outer.x, min iy1 oy1, outer.w, oy1 - iy1⟩,
      ⟨outer.x, inner.y, inner.x - outer.x, inner.h⟩,
      ⟨min ix1 ox1, inner.y, ox1 - ix1, inner.h⟩]

/-- What the loop keeps of piece `p` at hole `h`. -/
def cut (h p : Rect) : List Rect :=
  let i := p.intersect h
  if i.isEmpty then [p] else (barsAround p i).filter (!·.isEmpty)

def subtractRects (r : Rect) (holes : List Rect) : List Rect :=
  holes.foldl (fun out h => out.flatMap (cut h)) (if r.isEmpty then [] else [r])

def Apart (p q : Rect) : Prop := ∀ x y, ¬(p.contains x y ∧ q.contains x y)

/-- The invariant of the loop: the pieces make up `S`. -/
structure Tiles (ps : List Rect) (S : ℕ → ℕ → Prop) : Prop where
  sound : ∀ p ∈ ps, p.Fits ∧ p.isEmpty = false
  apart : ps.Pairwise Apart
  cover : ∀ x y, (∃ p ∈ ps, p.contains x y) ↔ S x y

variable {p h i r : Rect} {x y : ℕ} {ps holes : List Rect} {S : ℕ → ℕ → Prop}

theorem contains_iff : p.contains x y ↔ (p.x ≤ x ∧ x < min (p.x + p.w) (2 ^ 32 - 1)) ∧
    p.y ≤ y ∧ y < min (p.y + p.h) (2 ^ 32 - 1) := by
  simp [Rect.contains, saturatingAdd, and_assoc]

/-- An empty piece holds no point. -/
theorem tiles_filter (hf : ∀ p ∈ ps, p.Fits) (ha : ps.Pairwise Apart)
    (hc : ∀ x y, (∃ p ∈ ps, p.contains x y) ↔ S x y) :
    Tiles (ps.filter (!·.isEmpty)) S where
  sound p hp := ⟨hf p (mem_filter.1 hp).1, by simpa using (mem_filter.1 hp).2⟩
  apart := ha.filter _
  cover x y := by
    rw [← hc]
    constructor
    · rintro ⟨p, hp, hxy⟩
      exact ⟨p, (mem_filter.1 hp).1, hxy⟩
    · rintro ⟨p, hp, hxy⟩
      refine ⟨p, mem_filter.2 ⟨hp, ?_⟩, hxy⟩
      rw [contains_iff] at hxy
      simp [Rect.isEmpty]
      omega

theorem intersect_spec (hp : p.Fits) (hh : h.Fits) :
    (p.intersect h).isEmpty ∧ Apart p h ∨ (p.intersect h).isEmpty = false ∧
      Inside (p.intersect h) p ∧
      ∀ x y, (p.intersect h).contains x y ↔ p.contains x y ∧ h.contains x y := by
  obtain ⟨hpx, hpy⟩ := hp
  obtain ⟨hhx, hhy⟩ := hh
  simp only [contains_iff, intersect, add32, Nat.mod_eq_of_lt, hpx, hpy, hhx, hhy, Apart]
  split
  · exact .inl ⟨rfl, fun x y => by omega⟩
  · refine .inr ⟨?_, ?_, fun x y => ?_⟩
    · simp [Rect.isEmpty]
      omega
    · simp only [Inside]
      omega
    · dsimp only
      omega

/-- The bars around a part of `p` are the rest of `p`. -/
theorem barsAround_spec (hp : p.Fits) (hi : i.Inside p) (hne : i.isEmpty = false) :
    Tiles ((barsAround p i).filter (!·.isEmpty)) fun x y => p.contains x y ∧ ¬i.contains x y := by
  obtain ⟨hx, hy⟩ := hp
  obtain ⟨⟨hl, hr⟩, ht, hb⟩ := hi
  simp only [barsAround, hne, add32, Nat.mod_eq_of_lt, hx, hy, hr.trans_lt hx, hb.trans_lt hy,
    Bool.false_eq_true, if_false]
  refine tiles_filter ?_ ?_ fun x y => ?_
  · simp [Fits]
    omega
  · simp only [pairwise_cons, forall_mem_cons]
    refine ⟨⟨?_, ?_, ?_, nofun⟩, ⟨?_, ?_, nofun⟩, ⟨?_, nofun⟩, nofun, .nil⟩ <;>
    · intro x y
      simp only [contains_iff]
      omega
  · simp [contains_iff]
    omega

theorem cut_spec (hp : p.Fits) (hne : p.isEmpty = false) (hh : h.Fits) :
    Tiles (cut h p) fun x y => p.contains x y ∧ ¬h.contains x y := by
  rw [cut]
  obtain ⟨hemp, hapart⟩ | ⟨hemp, hin, hboth⟩ := intersect_spec hp hh
  · rw [if_pos hemp]
    refine ⟨by simp [hp, hne], pairwise_singleton .., fun x y => ?_⟩
    simpa using hapart x y
  · rw [if_neg (by simp [hemp])]
    obtain ⟨hs, ha, hc⟩ := barsAround_spec hp hin hemp
    refine ⟨hs, ha, fun x y => ?_⟩
    simp only [hc, hboth]
    tauto

/-- One hole: a piece of `p` lies in `p`. -/
theorem Tiles.flatMap_cut (hps : Tiles ps S) (hh : h.Fits) :
    Tiles (ps.flatMap (cut h)) fun x y => S x y ∧ ¬h.contains x y := by
  have hcut : ∀ p ∈ ps, Tiles (cut h p) fun x y => p.contains x y ∧ ¬h.contains x y :=
    fun p hp => cut_spec (hps.sound p hp).1 (hps.sound p hp).2 hh
  refine ⟨?_, pairwise_flatMap.2 ⟨fun p hp => (hcut p hp).apart, ?_⟩, fun x y => ?_⟩
  · simp only [mem_flatMap]
    rintro q ⟨p, hp, hq⟩
    exact (hcut p hp).sound q hq
  · refine hps.apart.imp_of_mem fun {p q} hp hq hpq a ha b hb x y hxy => ?_
    exact hpq x y ⟨(((hcut p hp).cover x y).1 ⟨a, ha, hxy.1⟩).1,
      (((hcut q hq).cover x y).1 ⟨b, hb, hxy.2⟩).1⟩
  · rw [← hps.cover]
    simp only [mem_flatMap]
    constructor
    · rintro ⟨q, ⟨p, hp, hq⟩, hxy⟩
      obtain ⟨hin, hout⟩ := ((hcut p hp).cover x y).1 ⟨q, hq, hxy⟩
      exact ⟨⟨p, hp, hin⟩, hout⟩
    · rintro ⟨⟨p, hp, hin⟩, hout⟩
      obtain ⟨q, hq, hxy⟩ := ((hcut p hp).cover x y).2 ⟨hin, hout⟩
      exact ⟨q, ⟨p, hp, hq⟩, hxy⟩

theorem Tiles.foldl_cut (hps : Tiles ps S) (hh : ∀ h ∈ holes, h.Fits) :
    Tiles (holes.foldl (fun out h => out.flatMap (cut h)) ps)
      fun x y => S x y ∧ ∀ h ∈ holes, ¬h.contains x y := by
  induction holes generalizing ps S with
  | nil => simpa using hps
  | cons h holes ih =>
    rw [forall_mem_cons] at hh
    simpa [and_assoc] using ih (hps.flatMap_cut hh.1) hh.2

/-- `subtract_rects` is the set difference. -/
theorem subtractRects_exact (r : Rect) (holes : List Rect) (hr : r.Fits)
    (hh : ∀ h ∈ holes, h.Fits) :
    (∀ p ∈ subtractRects r holes, p.isEmpty = false) ∧
    (subtractRects r holes).Pairwise (fun p q => ∀ x y, ¬(p.contains x y ∧ q.contains x y)) ∧
    ∀ x y, (∃ p ∈ subtractRects r holes, p.contains x y) ↔
      r.contains x y ∧ ∀ h ∈ holes, ¬h.contains x y := by
  have hinit : (if r.isEmpty then [] else [r]) = [r].filter (!·.isEmpty) := by
    cases hemp : r.isEmpty <;> simp [hemp]
  have hfirst : Tiles ([r].filter (!·.isEmpty)) fun x y => r.contains x y :=
    tiles_filter (by simpa) (pairwise_singleton ..) (by simp)
  rw [← hinit] at hfirst
  obtain ⟨hsound, hapart, hcover⟩ := hfirst.foldl_cut hh
  exact ⟨fun p hp => (hsound p hp).2, hapart, hcover⟩

/-- Two holes that overlap. -/
theorem subtractRects_exact_overlap : let holes : List Rect := [⟨1, 1, 2, 2⟩, ⟨2, 2, 2, 2⟩]
    (∃ p ∈ subtractRects ⟨0, 0, 4, 4⟩ holes, p.contains 0 3) ↔
      Rect.contains ⟨0, 0, 4, 4⟩ 0 3 ∧ ∀ h ∈ holes, ¬h.contains 0 3 :=
  (subtractRects_exact _ _ (by simp [Fits]) (by simp [Fits])).2.2 0 3

end Thylacine.Pane
