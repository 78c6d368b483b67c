import Mathlib.Data.List.Nodup
import Thylacine.Lib.PointerChain

/-!
# Null-Terminated Doubly Linked Lists

A list with a first and a last pointer, whose nodes carry a `next` and a `prev` field; the end
of the list is a null link. Several lists may share the two fields, each with its own ends.
`DList.Holds l xs` says that the nodes from `first` on are exactly `xs`, read backwards from `last`
as well, and that no node is repeated.

## Main results

* `Holds.insertBetween`, `Holds.unlink`: the edits, as the pointer writes an implementation
  makes; `Holds.pushFront`, `Holds.pushBack` and `Holds.linkBefore` are cases of the first.
* `Holds.congr`: the frame rule; `SameLinks` is what an edit leaves alone.
-/

namespace DoublyLinked

open Function (update update_of_ne update_self)
open List hiding Chain
open PointerChain

/-- A list: its ends, and the link fields of all nodes. -/
structure DList (α : Type*) where
  first : Option α
  last : Option α
  next : α → Option α
  prev : α → Option α

namespace DList

variable {α : Type*} {l l' : DList α} {xs ys zs : List α} {a m x : α} {v p : Option α}

/-- The list holds exactly the nodes `xs`, in this order. -/
structure Holds (l : DList α) (xs : List α) : Prop where
  fwd : Chain l.next l.first xs
  bwd : Chain l.prev l.last xs.reverse
  nodup : xs.Nodup

/-- The links of all nodes outside `S` are the same. -/
def SameLinks (l l' : DList α) (S : List α) : Prop :=
  ∀ x, x ∉ S → l'.next x = l.next x ∧ l'.prev x = l.prev x

/-- The list read backwards. -/
def flip (l : DList α) : DList α := ⟨l.last, l.first, l.prev, l.next⟩

/-! ### What a list knows of its nodes -/

theorem Holds.first_eq (h : l.Holds xs) : l.first = xs.head? := h.fwd.head_eq

theorem Holds.last_eq (h : l.Holds xs) : l.last = xs.getLast? := by
  rw [h.bwd.head_eq, head?_reverse]

theorem Holds.next_eq (h : l.Holds (ys ++ a :: zs)) : l.next a = zs.head? := h.fwd.mem_eq

theorem reverse_middle (ys zs : List α) (a : α) :
    (ys ++ a :: zs).reverse = zs.reverse ++ a :: ys.reverse := by
  rw [reverse_append, reverse_cons, append_assoc, singleton_append]

theorem Holds.prev_eq (h : l.Holds (ys ++ a :: zs)) : l.prev a = ys.getLast? := by
  have hbwd := h.bwd
  rw [reverse_middle] at hbwd
  rw [hbwd.mem_eq, head?_reverse]

/-- Lists with the same links and a common node are one. -/
theorem Holds.eq_of_mem {f g : α → Option α} {p q p' q' : Option α} (h : Holds ⟨p, q, f, g⟩ xs)
    (h' : Holds ⟨p', q', f, g⟩ ys) (hx : x ∈ xs) (hy : x ∈ ys) : xs = ys := by
  obtain ⟨as, bs, rfl⟩ := append_of_mem hx
  obtain ⟨cs, ds, rfl⟩ := append_of_mem hy
  obtain ⟨-, -, -, hbs⟩ := chain_append.mp h.fwd
  obtain ⟨-, -, -, hds⟩ := chain_append.mp h'.fwd
  obtain ⟨-, -, -, has⟩ := chain_append.mp (reverse_middle as bs x ▸ h.bwd)
  obtain ⟨-, -, -, hcs⟩ := chain_append.mp (reverse_middle cs ds x ▸ h'.bwd)
  rw [hbs.unique hds, reverse_injective (has.unique hcs)]

/-- **The frame rule.** A list survives a change to other nodes. -/
theorem Holds.congr (h : l.Holds xs) {S : List α} (hag : l.SameLinks l' S)
    (hS : ∀ x ∈ xs, x ∉ S) (hfirst : l'.first = l.first) (hlast : l'.last = l.last) :
    l'.Holds xs := by
  refine ⟨?_, ?_, h.nodup⟩
  · rw [hfirst]
    exact h.fwd.congr fun x hx => (hag x (hS x hx)).1
  · rw [hlast]
    exact h.bwd.congr fun x hx => (hag x (hS x (mem_reverse.mp hx))).2

theorem ne_getLast_of_mem (hnd : (ys ++ zs).Nodup) (hx : x ∈ zs) : ys.getLast? ≠ some x := by
  intro h
  exact (nodup_append.mp hnd).2.2 x (mem_of_getLast? h) x hx rfl

section Edits

variable [DecidableEq α]

section

variable (l : DList α)

/-- Make `v` follow `p`, or be the first node if `p` is null. -/
def setNext (p v : Option α) : DList α :=
  match p with
  | none => { l with first := v }
  | some a => { l with next := update l.next a v }

/-- Make `v` precede `n`, or be the last node if `n` is null. -/
def setPrev (n v : Option α) : DList α :=
  match n with
  | none => { l with last := v }
  | some a => { l with prev := update l.prev a v }

/-- Link `m` in between `p` and `n`. -/
def insertBetween (p n : Option α) (m : α) : DList α :=
  let l := { l with
    prev := update l.prev m p
    next := update l.next m n }
  let l := l.setNext p (some m)
  l.setPrev n (some m)

/-- Link `m` in before `a`. -/
def linkBefore (a m : α) : DList α :=
  let l := { l with
    prev := update l.prev m (l.prev a)
    next := update l.next m (some a) }
  let l := l.setNext (l.prev a) (some m)
  { l with prev := update l.prev a (some m) }

/-- Link `m` in before the first node `a`. -/
def pushFront (a m : α) : DList α :=
  { l with
    prev := update (update l.prev m none) a (some m)
    next := update l.next m (some a)
    first := some m }

/-- Link `m` in after the last node. -/
def pushBack (m : α) : DList α :=
  let l := { l with
    prev := update l.prev m l.last
    next := update l.next m none }
  let l := l.setNext l.last (some m)
  { l with last := some m }

/-- Take `m` out, and clear its links. -/
def unlink (m : α) : DList α :=
  let l := l.setNext (l.prev m) (l.next m)
  let l := l.setPrev (l.next m) (l.prev m)
  { l with
    next := update l.next m none
    prev := update l.prev m none }

@[simp] theorem setNext_prev (p v : Option α) : (l.setNext p v).prev = l.prev := by cases p <;> rfl

@[simp] theorem setPrev_next (p v : Option α) : (l.setPrev p v).next = l.next := by cases p <;> rfl

@[simp] theorem setPrev_first (p v : Option α) : (l.setPrev p v).first = l.first := by
  cases p <;> rfl

end

theorem setNext_next_of_ne (hx : p ≠ some x) : (l.setNext p v).next x = l.next x := by
  cases p with
  | none => rfl
  | some b => exact update_of_ne (fun h => hx (congrArg some h.symm)) _ _

theorem setPrev_prev_of_ne (hx : p ≠ some x) : (l.setPrev p v).prev x = l.prev x := by
  cases p with
  | none => rfl
  | some b => exact update_of_ne (fun h => hx (congrArg some h.symm)) _ _

/-! ### Lists without a tail pointer -/

/-- The lists differ in their tail pointers at most. -/
structure UpToLast (l l' : DList α) : Prop where
  first : l'.first = l.first
  next : l'.next = l.next
  prev : l'.prev = l.prev

section

variable (h : UpToLast l l')
include h

theorem UpToLast.insertBetween (p n : Option α) (m : α) :
    UpToLast (l.insertBetween p n m) (l'.insertBetween p n m) := by
  obtain ⟨hf, hn, hp⟩ := h
  cases p <;> cases n <;>
    simp only [DList.insertBetween, hf, hn, hp] <;> exact ⟨rfl, rfl, rfl⟩

theorem UpToLast.setNext (p v : Option α) : UpToLast (l.setNext p v) (l'.setNext p v) := by
  cases p with
  | none => exact ⟨rfl, h.next, h.prev⟩
  | some a => exact ⟨h.first, by simp only [DList.setNext, h.next], h.prev⟩

theorem UpToLast.setPrev (n v : Option α) : UpToLast (l.setPrev n v) (l'.setPrev n v) := by
  cases n with
  | none => exact ⟨h.first, h.next, h.prev⟩
  | some a => exact ⟨h.first, h.next, by simp only [DList.setPrev, h.prev]⟩

theorem UpToLast.unlink (m : α) : UpToLast (l.unlink m) (l'.unlink m) := by
  have hset := h.setNext (l.prev m) (l.next m)
  have hboth := hset.setPrev ((l.setNext (l.prev m) (l.next m)).next m)
    ((l.setNext (l.prev m) (l.next m)).prev m)
  simp only [DList.unlink]
  rw [h.prev, h.next, hset.next, hset.prev]
  exact ⟨hboth.first, by simp only [hboth.next], by simp only [hboth.prev]⟩

end

omit [DecidableEq α] in
/-- The nodes of a list determine its tail pointer. -/
theorem Holds.upToLast (h : l.Holds xs) (hl : UpToLast l l') :
    Holds ⟨l'.first, xs.getLast?, l'.next, l'.prev⟩ xs := by
  rw [← h.last_eq, hl.first, hl.next, hl.prev]
  exact h

/-! ### The chains after a write -/

/-- Writing the link that leads to it replaces the tail. -/
theorem fwd_setNext (h : Chain l.next l.first (ys ++ zs)) (hnd : ys.Nodup) {zs' : List α} (htail : Chain (l.setNext ys.getLast? v).next v zs') :
    Chain (l.setNext ys.getLast? v).next (l.setNext ys.getLast? v).first (ys ++ zs') := by
  rcases eq_nil_or_concat ys with rfl | ⟨ys, b, rfl⟩
  · exact htail
  · rw [concat_eq_append] at hnd htail h ⊢
    rw [getLast?_concat] at htail ⊢
    obtain ⟨hnd, -, hb⟩ := nodup_append.mp hnd
    obtain ⟨r, hseg, -⟩ := chain_append.mp h
    obtain ⟨r, hys, rfl, -⟩ := seg_append.mp hseg
    refine chain_append.mpr ⟨v, seg_append.mpr ⟨some b, ?_, rfl, ?_⟩, htail⟩
    · refine hys.congr fun x hx => update_of_ne ?_ _ _
      exact hb x hx b mem_cons_self
    · exact update_self ..

/-- A write to `m` changes no chain that misses it. -/
theorem chain_update {f : α → Option α} (h : Chain f p xs) (hm : m ∉ xs) :
    Chain (update f m v) p xs :=
  h.congr fun _ hx => update_of_ne (ne_of_mem_of_not_mem hx hm) _ _

/-! ### The edits -/

theorem fwd_unlink (h : Chain l.next l.first (ys ++ m :: zs)) (hnd : (ys ++ m :: zs).Nodup) :
    Chain (update (l.setNext ys.getLast? zs.head?).next m none)
      (l.setNext ys.getLast? zs.head?).first (ys ++ zs) := by
  obtain ⟨hm, hnd'⟩ := nodup_cons.mp (nodup_middle.mp hnd)
  obtain ⟨-, -, -, hzs⟩ := chain_append.mp h
  rw [h.mem_eq] at hzs
  have htail : Chain (l.setNext ys.getLast? zs.head?).next zs.head? zs :=
    hzs.congr fun x hx => setNext_next_of_ne (ne_getLast_of_mem hnd' hx)
  exact chain_update (fwd_setNext h (nodup_append.mp hnd).1 htail) hm

theorem Holds.unlink_eq (h : l.Holds (ys ++ m :: zs)) : l.unlink m =
    { first := (l.setNext ys.getLast? zs.head?).first
      last := (l.flip.setNext zs.head? ys.getLast?).first
      next := update (l.setNext ys.getLast? zs.head?).next m none
      prev := update (l.flip.setNext zs.head? ys.getLast?).next m none } := by
  have hlast : ys.getLast? ≠ some m := ne_getLast_of_mem h.nodup mem_cons_self
  rw [unlink, setNext_prev, h.prev_eq, setNext_next_of_ne hlast, h.next_eq]
  cases ys.getLast? <;> cases zs.head? <;> rfl

/-- **Unlinking** takes a node out. -/
theorem Holds.unlink (h : l.Holds (ys ++ m :: zs)) : (l.unlink m).Holds (ys ++ zs) := by
  rw [h.unlink_eq]
  refine ⟨fwd_unlink h.fwd h.nodup, ?_, h.nodup.sublist (by simp)⟩
  -- the list read backwards is such a list too
  have hbwd : Chain l.flip.next l.flip.first (zs.reverse ++ m :: ys.reverse) :=
    reverse_middle ys zs m ▸ h.bwd
  have hkey := fwd_unlink hbwd (reverse_middle ys zs m ▸ nodup_reverse.mpr h.nodup)
  rwa [getLast?_reverse, head?_reverse, ← reverse_append] at hkey

theorem insertBetween_flip (l : DList α) (p n : Option α) (m : α) :
    (l.insertBetween p n m).flip = l.flip.insertBetween n p m := by
  cases p <;> cases n <;> rfl

theorem fwd_insertBetween (h : Chain l.next l.first (ys ++ zs)) (hnd : (ys ++ zs).Nodup)
    (hm : m ∉ ys ++ zs) :
    Chain (l.insertBetween ys.getLast? zs.head? m).next
      (l.insertBetween ys.getLast? zs.head? m).first (ys ++ m :: zs) := by
  have hlast : ys.getLast? ≠ some m := fun heq => hm (mem_append_left _ (mem_of_getLast? heq))
  rw [insertBetween, setPrev_next, setPrev_first]
  have hchain : Chain (update l.next m zs.head?) l.first (ys ++ zs) := chain_update h hm
  refine fwd_setNext hchain (nodup_append.mp hnd).1 ⟨rfl, ?_⟩
  rw [setNext_next_of_ne hlast]
  change Chain _ (update l.next m zs.head? m) zs
  obtain ⟨r, -, hzs⟩ := chain_append.mp h
  obtain rfl := hzs.head_eq
  rw [update_self]
  refine hzs.congr fun x hx => ?_
  rw [setNext_next_of_ne (ne_getLast_of_mem hnd hx)]
  exact update_of_ne (ne_of_mem_of_not_mem (mem_append_right ys hx) hm) _ _

/-- **Linking** a node between two neighbours. -/
theorem Holds.insertBetween (h : l.Holds (ys ++ zs)) (hm : m ∉ ys ++ zs) :
    (l.insertBetween ys.getLast? zs.head? m).Holds (ys ++ m :: zs) := by
  refine ⟨fwd_insertBetween h.fwd h.nodup hm, ?_, ?_⟩
  · -- the list read backwards is such a list too
    have hflip := insertBetween_flip l ys.getLast? zs.head? m
    rw [← getLast?_reverse, ← head?_reverse] at hflip ⊢
    rw [reverse_middle]
    have hbwd : Chain l.flip.next l.flip.first (zs.reverse ++ ys.reverse) := by
      rw [← reverse_append]
      exact h.bwd
    have hkey := fwd_insertBetween hbwd (by rw [← reverse_append]; exact nodup_reverse.mpr h.nodup)
      (by rw [← reverse_append]; exact fun hx => hm (mem_reverse.mp hx))
    rw [← hflip] at hkey
    exact hkey
  · rw [nodup_middle]
    exact nodup_cons.mpr ⟨hm, h.nodup⟩

theorem Holds.pushBack_eq (h : l.Holds xs) : l.pushBack m = l.insertBetween xs.getLast? none m := by
  rw [← h.last_eq]
  rfl

theorem Holds.linkBefore_eq (h : l.Holds (ys ++ a :: zs)) (hma : m ≠ a) :
    l.linkBefore a m = l.insertBetween ys.getLast? (some a) m := by
  rw [← h.prev_eq]
  simp only [linkBefore, update_of_ne hma.symm]
  rfl

/-- **Pushing** a node at the front. -/
theorem Holds.pushFront (h : l.Holds (a :: zs)) (hm : m ∉ a :: zs) :
    (l.pushFront a m).Holds (m :: a :: zs) := by
  rw [← nil_append (a :: zs)] at h hm
  exact h.insertBetween hm

/-- **Appending** a node at the end. -/
theorem Holds.pushBack (h : l.Holds xs) (hm : m ∉ xs) : (l.pushBack m).Holds (xs ++ [m]) := by
  rw [h.pushBack_eq]
  rw [← append_nil xs] at h hm
  exact h.insertBetween hm

/-- **Linking** a node in before another one. -/
theorem Holds.linkBefore (h : l.Holds (ys ++ a :: zs)) (hm : m ∉ ys ++ a :: zs) :
    (l.linkBefore a m).Holds (ys ++ m :: a :: zs) := by
  rw [h.linkBefore_eq fun heq => hm (heq ▸ by simp)]
  exact h.insertBetween hm

/-! ### What the edits write -/

theorem Holds.sameLinks_unlink (h : l.Holds (ys ++ m :: zs)) :
    l.SameLinks (l.unlink m) (ys ++ m :: zs) := by
  intro x hx
  have hxm : x ≠ m := fun heq => hx (heq ▸ by simp)
  have hlast : ys.getLast? ≠ some x := fun heq => hx (mem_append_left _ (mem_of_getLast? heq))
  have hhead : zs.head? ≠ some x := fun heq =>
    hx (mem_append_right _ (mem_cons_of_mem m (mem_of_head? heq)))
  rw [h.unlink_eq]
  exact ⟨(update_of_ne hxm ..).trans (setNext_next_of_ne hlast),
    (update_of_ne hxm ..).trans (setNext_next_of_ne hhead)⟩

theorem sameLinks_insertBetween (l : DList α) (ys zs : List α) (m : α) :
    l.SameLinks (l.insertBetween ys.getLast? zs.head? m) (m :: (ys ++ zs)) := by
  intro x hx
  have hxm : x ≠ m := fun heq => hx (heq ▸ mem_cons_self)
  have hlast : ys.getLast? ≠ some x := fun heq =>
    hx (mem_cons_of_mem m (mem_append_left _ (mem_of_getLast? heq)))
  have hhead : zs.head? ≠ some x := fun heq =>
    hx (mem_cons_of_mem m (mem_append_right _ (mem_of_head? heq)))
  rw [insertBetween, setPrev_next, setNext_next_of_ne hlast, setPrev_prev_of_ne hhead, setNext_prev]
  exact ⟨update_of_ne hxm _ _, update_of_ne hxm _ _⟩

theorem Holds.sameLinks_pushFront (l : DList α) (a m : α) :
    l.SameLinks (l.pushFront a m) [m, a] := by
  intro x hx
  simp only [mem_cons, not_mem_nil, or_false, not_or] at hx
  simp [DList.pushFront, update_of_ne hx.1, update_of_ne hx.2]

theorem Holds.sameLinks_pushBack (h : l.Holds xs) : l.SameLinks (l.pushBack m) (m :: xs) := by
  have hkey := sameLinks_insertBetween l xs [] m
  rw [append_nil] at hkey
  rw [h.pushBack_eq]
  exact hkey

end Edits

end DList

end DoublyLinked
