import Mathlib.Data.List.Nodup

/-!
# Slot Tables with Chained Hashing and Second-Chance Replacement

An array of slots that is filled from the front by a cursor and, once full, recycled by a clock
hand that spares every slot used since its last visit. The valid slots are found through one or
more chained hash indexes. Each entry carries the epoch it was stored in: moving the epoch
forgets every older entry at once, and leaves the slots where they are.

`Table.Ok` says that the indexes hold exactly the valid slots, and that a key has at most one of
them. `Table.Entry` is what the table says in an epoch, as a relation of keys and values.

## Main results

* `Ok.install`, `Ok.dropKey`, `Ok.dropMatching`: each operation keeps `Ok`; storing a value
  replaces the entry of its key, dropping removes one, and no operation adds anything else.
-/

namespace ClockTable

open List
open Option (some_ne_none)
open Function (update_of_ne update_self)

structure Slot (K V : Type*) where
  key : K
  valid : Bool
  ref : Bool
  epoch : ℕ
  val : V

/-- Capacity, hash indexes, and the index of lookups. -/
structure Shape (ι K : Type*) where
  cap : ℕ
  bucket : ι → K → ℕ
  main : ι

/-- The slots and indexes; `ready` once the array is allocated. -/
structure Table (ι K V : Type*) where
  ready : Bool
  slots : ℕ → Slot K V
  chains : ι → ℕ → List ℕ
  used : ℕ
  hand : ℕ

namespace Table

variable {ι K V : Type*}

/-- A zeroed array of slots. -/
def blank [Inhabited K] [Inhabited V] (ready : Bool) : Table ι K V where
  ready
  slots _ := ⟨default, false, false, 0, default⟩
  chains _ _ := []
  used := 0
  hand := 0

/-- The array, allocated by the first store. -/
def ensure [Inhabited K] [Inhabited V] (t : Table ι K V) (oom : Bool) : Option (Table ι K V) :=
  if t.ready then some t else if oom then none else some (blank true)

def modify (t : Table ι K V) (i : ℕ) (f : Slot K V → Slot K V) : Table ι K V :=
  { t with slots := Function.update t.slots i (f (t.slots i)) }

/-- Put slot `i` first in its chain of every index. -/
def link (σ : Shape ι K) (t : Table ι K V) (i : ℕ) : Table ι K V :=
  { t with
    chains := fun ix b =>
      if b = σ.bucket ix (t.slots i).key then i :: t.chains ix b else t.chains ix b }

/-- Take slot `i` out of its chain in every index. -/
def unlink (σ : Shape ι K) (t : Table ι K V) (i : ℕ) : Table ι K V :=
  { t with
    chains := fun ix b =>
      if b = σ.bucket ix (t.slots i).key then (t.chains ix b).erase i else t.chains ix b }

def live (t : Table ι K V) (ep : ℕ) (i : ℕ) : Bool := (t.slots i).valid && (t.slots i).epoch == ep

/-- The slot of a key, of this epoch or an older one. -/
def keySlot [DecidableEq K] (σ : Shape ι K) (t : Table ι K V) (k : K) : Option ℕ :=
  (t.chains σ.main (σ.bucket σ.main k)).find? fun i => (t.slots i).valid && (t.slots i).key == k

/-- The slot that holds a key in this epoch. -/
def find [DecidableEq K] (σ : Shape ι K) (t : Table ι K V) (ep : ℕ) (k : K) : Option ℕ :=
  if t.ready then (t.keySlot σ k).filter (t.live ep) else none

/-- Advance the clock hand, at most `fuel` times, to a slot free or not used since its last visit. -/
def clockEvict (σ : Shape ι K) (ep : ℕ) : ℕ → Table ι K V → ℕ × Table ι K V
  | 0, t => (t.hand, t)
  | fuel + 1, t =>
    let moved := { t with hand := (t.hand + 1) % σ.cap }
    if !t.live ep t.hand then (t.hand, moved)
    else if (t.slots t.hand).ref then
      clockEvict σ ep fuel (moved.modify t.hand fun s => { s with ref := false })
    else (t.hand, moved)

/-- A slot for a new key: the next unused, or the clock's victim, unlinked. -/
def takeSlot (σ : Shape ι K) (ep : ℕ) (t : Table ι K V) : ℕ × Table ι K V :=
  if t.used < σ.cap then (t.used, { t with used := t.used + 1 })
  else
    let victim := clockEvict σ ep (2 * σ.cap) t
    (victim.1, victim.2.unlink σ victim.1)

/-- Give slot `i` to a new key: linked, not yet valid. -/
def claim (σ : Shape ι K) (t : Table ι K V) (i : ℕ) (k : K) : Table ι K V :=
  (t.modify i fun s => { s with valid := false, key := k }).link σ i

/-- The slot that a store of `k` goes to. -/
def installSlot [DecidableEq K] (σ : Shape ι K) (ep : ℕ) (t : Table ι K V) (k : K) :
    ℕ × Table ι K V :=
  match t.keySlot σ k with
  | some i => (i, t)
  | none => ((t.takeSlot σ ep).1, (t.takeSlot σ ep).2.claim σ (t.takeSlot σ ep).1 k)

/-- Fill a slot with content. -/
def put (t : Table ι K V) (i : ℕ) (ep : ℕ) (v : V) : Table ι K V :=
  t.modify i fun s => { s with valid := true, epoch := ep, ref := true, val := v }

/-- Mark a slot as used. -/
def touch (t : Table ι K V) (i : ℕ) : Table ι K V := t.modify i fun s => { s with ref := true }

/-- Change the content of a slot in place. -/
def setVal (t : Table ι K V) (i : ℕ) (v : V) : Table ι K V :=
  t.modify i fun s => { s with val := v }

/-- Empty a slot. -/
def drop (σ : Shape ι K) (t : Table ι K V) (i : ℕ) : Table ι K V :=
  (t.unlink σ i).modify i fun s => { s with valid := false }

/-- Empty the slot of `k` in this epoch, if any. -/
def dropKey [DecidableEq K] (σ : Shape ι K) (ep : ℕ) (t : Table ι K V) (k : K) : Table ι K V :=
  match t.find σ ep k with
  | some i => t.drop σ i
  | none => t

/-- Empty the slots of a chain whose key satisfies `p`. -/
def dropMatching (σ : Shape ι K) (p : K → Bool) : List ℕ → Table ι K V → Table ι K V
  | [], t => t
  | i :: is, t =>
    dropMatching σ p is (if p (t.slots i).key && (t.slots i).valid then t.drop σ i else t)

/-! ### The invariant -/

/-- The indexes hold **exactly the valid slots**, once, no key has two, and `P` holds of their
content. -/
structure Ok (σ : Shape ι K) (P : V → Prop) (ep : ℕ) (t : Table ι K V) : Prop where
  linked : ∀ i ix, (t.slots i).valid = true → i ∈ t.chains ix (σ.bucket ix (t.slots i).key)
  member : ∀ ix b i, i ∈ t.chains ix b → (t.slots i).valid = true ∧ σ.bucket ix (t.slots i).key = b
  nodup : ∀ ix b, (t.chains ix b).Nodup
  one : ∀ i j, (t.slots i).valid = true → (t.slots j).valid = true →
    (t.slots i).key = (t.slots j).key → i = j
  stamp : ∀ i, (t.slots i).valid = true → (t.slots i).epoch ≤ ep
  content : ∀ i, (t.slots i).valid = true → P (t.slots i).val
  unused : ∀ i, t.used ≤ i → (t.slots i).valid = false
  ready : ∀ i, (t.slots i).valid = true → t.ready = true
  hand_lt : t.hand < σ.cap

/-- What the table says of key `k` in epoch `ep`. -/
def Entry (t : Table ι K V) (ep : ℕ) (k : K) (v : V) : Prop :=
  ∃ i, t.live ep i = true ∧ (t.slots i).key = k ∧ (t.slots i).val = v

theorem live_iff {t : Table ι K V} {ep i : ℕ} :
    t.live ep i = true ↔ (t.slots i).valid = true ∧ (t.slots i).epoch = ep := by
  rw [live, Bool.and_eq_true, beq_iff_eq]

variable {σ : Shape ι K} {P : V → Prop} {ep j ep' b : ℕ} {t t' : Table ι K V} {i : ℕ} {k k' : K} {v v' : V}
  {f : Slot K V → Slot K V}

theorem blank_ok [Inhabited K] [Inhabited V] (hcap : 0 < σ.cap) (ready : Bool) :
    (blank ready : Table ι K V).Ok σ P ep where
  linked := nofun
  member _ _ _ h := absurd h not_mem_nil
  nodup _ _ := nodup_nil
  one := nofun
  stamp := nofun
  content := nofun
  unused _ _ := rfl
  ready := nofun
  hand_lt := hcap

theorem not_entry_blank [Inhabited K] [Inhabited V] (ready : Bool) :
    ¬(blank ready : Table ι K V).Entry ep k v := by
  rintro ⟨i, hlive, -⟩
  exact Bool.noConfusion (live_iff.mp hlive).1

section

variable (h : t.Ok σ P ep)
include h

/-- After `ensure` there is an array, and no new entry. -/
theorem Ok.ensure [Inhabited K] [Inhabited V] {oom : Bool} (ht : t.ensure oom = some t') :
    t'.Ok σ P ep ∧ t'.ready = true ∧ ∀ k v, t'.Entry ep k v → t.Entry ep k v := by
  rw [Table.ensure] at ht
  split at ht
  · next hready =>
      cases ht
      exact ⟨h, hready, fun _ _ => id⟩
  · split at ht
    · cases ht
    · cases ht
      exact ⟨blank_ok (Nat.zero_lt_of_lt h.hand_lt) true, rfl,
        fun _ _ he => absurd he (not_entry_blank true)⟩

/-- Moving the epoch keeps the table well-formed. -/
theorem Ok.mono (hle : ep ≤ ep') : t.Ok σ P ep' :=
  { h with stamp := fun i hi => Nat.le_trans (h.stamp i hi) hle }

/-- Moving the epoch **forgets** every entry. -/
theorem Ok.not_entry_of_lt (hlt : ep < ep') : ¬t.Entry ep' k v := by
  rintro ⟨i, hlive, -⟩
  obtain ⟨hvalid, hep⟩ := live_iff.mp hlive
  have := h.stamp i hvalid
  omega

theorem Ok.not_mem_of_invalid (hi : (t.slots i).valid = false) (ix : ι) (b : ℕ) :
    i ∉ t.chains ix b := by
  intro hmem
  rw [(h.member ix b i hmem).1] at hi
  cases hi

/-- A lookup finds **the** slot of a key. -/
theorem Ok.keySlot_eq_some_iff [DecidableEq K] :
    t.keySlot σ k = some i ↔ (t.slots i).valid = true ∧ (t.slots i).key = k := by
  constructor
  · intro hfind
    simpa using find?_some hfind
  · rintro ⟨hvalid, rfl⟩
    have hmem := h.linked i σ.main hvalid
    have hsome : (t.keySlot σ (t.slots i).key).isSome = true :=
      find?_isSome.mpr ⟨i, hmem, by simp [hvalid]⟩
    obtain ⟨j, hj⟩ := Option.isSome_iff_exists.mp hsome
    have hji : (t.slots j).valid = true ∧ (t.slots j).key = (t.slots i).key := by
      simpa using find?_some hj
    rw [hj, h.one j i hji.1 hvalid hji.2]

theorem Ok.find_eq_some_iff [DecidableEq K] :
    t.find σ ep k = some i ↔ t.live ep i = true ∧ (t.slots i).key = k := by
  by_cases hready : t.ready = true
  · rw [find, if_pos hready, Option.filter_eq_some_iff, h.keySlot_eq_some_iff, live_iff]
    tauto
  · rw [find, if_neg hready]
    refine iff_of_false (some_ne_none i).symm fun hi => hready ?_
    exact h.ready i (live_iff.mp hi.1).1

theorem Ok.entry_of_find [DecidableEq K] (hi : t.find σ ep k = some i) :
    t.Entry ep k (t.slots i).val :=
  ⟨i, (h.find_eq_some_iff.mp hi).1, (h.find_eq_some_iff.mp hi).2, rfl⟩

theorem Ok.not_entry_of_find [DecidableEq K] (hi : t.find σ ep k = none) : ¬t.Entry ep k v := by
  rintro ⟨i, hlive, hkey, -⟩
  rw [h.find_eq_some_iff.mpr ⟨hlive, hkey⟩] at hi
  cases hi

end

/-! ### Operations on one slot -/

/-- If one slot changes, with its links, the table stays well-formed. -/
theorem Ok.of_slot (h : t.Ok σ P ep) (hother : ∀ j ≠ i, t'.slots j = t.slots j)
    (hmem : ∀ ix b j, j ∈ t'.chains ix b ↔ if j = i then (t'.slots i).valid = true ∧
      σ.bucket ix (t'.slots i).key = b else j ∈ t.chains ix b)
    (hnodup : ∀ ix b, (t'.chains ix b).Nodup)
    (hself : (t'.slots i).valid = true → (t'.slots i).epoch ≤ ep ∧ P (t'.slots i).val ∧
      i < t.used ∧ t.ready = true ∧
      ∀ j ≠ i, (t.slots j).valid = true → (t.slots j).key ≠ (t'.slots i).key)
    (hrest : t'.used = t.used ∧ t'.ready = t.ready ∧ t'.hand = t.hand) : t'.Ok σ P ep := by
  obtain ⟨hused, hready, hhand⟩ := hrest
  refine ⟨fun j ix hj => ?_, fun ix b j hj => ?_, hnodup, fun a b ha hb hab => ?_, fun j hj => ?_,
    fun j hj => ?_, fun j hj => ?_, fun j hj => ?_, hhand ▸ h.hand_lt⟩
  · rw [hmem]
    split_ifs with hji
    · exact ⟨hji ▸ hj, hji ▸ rfl⟩
    · rw [hother j hji] at hj ⊢
      exact h.linked j ix hj
  · rw [hmem] at hj
    split_ifs at hj with hji
    · exact hji ▸ hj
    · rw [hother j hji]
      exact h.member ix b j hj
  · by_cases hai : a = i <;> by_cases hbi : b = i
    · rw [hai, hbi]
    · rw [hother b hbi] at hb hab
      exact absurd (hab.symm.trans (hai ▸ rfl)) ((hself (hai ▸ ha)).2.2.2.2 b hbi hb)
    · rw [hother a hai] at ha hab
      exact absurd (hab.trans (hbi ▸ rfl)) ((hself (hbi ▸ hb)).2.2.2.2 a hai ha)
    · rw [hother a hai] at ha hab
      rw [hother b hbi] at hb hab
      exact h.one a b ha hb hab
  · by_cases hji : j = i
    · exact hji ▸ (hself (hji ▸ hj)).1
    · rw [hother j hji] at hj ⊢
      exact h.stamp j hj
  · by_cases hji : j = i
    · exact hji ▸ (hself (hji ▸ hj)).2.1
    · rw [hother j hji] at hj ⊢
      exact h.content j hj
  · rw [hused] at hj
    by_cases hji : j = i
    · by_contra hvalid
      have hlt := (hself (hji ▸ Bool.not_eq_false _ ▸ hvalid)).2.2.1
      omega
    · rw [hother j hji]
      exact h.unused j hj
  · rw [hready]
    by_cases hji : j = i
    · exact (hself (hji ▸ hj)).2.2.2.1
    · rw [hother j hji] at hj
      exact h.ready j hj

/-- What a slot says of a key depends on that slot. -/
theorem says_congr (h : t'.slots j = t.slots j) :
    (t'.live ep j = true ∧ (t'.slots j).key = k ∧ (t'.slots j).val = v) ↔
      t.live ep j = true ∧ (t.slots j).key = k ∧ (t.slots j).val = v := by
  rw [live_iff, live_iff, h]

/-- Writing to a key's slot, and keeping the key. -/
theorem Ok.write (h : t.Ok σ P ep) (hi : (t.slots i).valid = true)
    (hf : (f (t.slots i)).key = (t.slots i).key ∧ (f (t.slots i)).valid = true ∧
      (f (t.slots i)).epoch ≤ ep ∧ P (f (t.slots i)).val) : (t.modify i f).Ok σ P ep := by
  obtain ⟨hkey, hvalid, hstamp, hval⟩ := hf
  have hself : (t.modify i f).slots i = f (t.slots i) := update_self ..
  refine h.of_slot (fun j hj => update_of_ne hj ..) (fun ix b j => ?_) h.nodup (fun _ => ?_)
    ⟨rfl, rfl, rfl⟩
  · rw [hself, hvalid, hkey]
    split_ifs with hji
    · rw [hji]
      exact ⟨fun hmem => ⟨rfl, (h.member ix b i hmem).2⟩, fun hb => hb.2 ▸ h.linked i ix hi⟩
    · rfl
  · rw [hself, hkey]
    refine ⟨hstamp, hval, ?_, h.ready i hi, fun j hj hjv hjk => hj (h.one j i hjv hi hjk)⟩
    by_contra hlt
    rw [h.unused i (Nat.le_of_not_lt hlt)] at hi
    cases hi

/-- The entries after a write to a key's **only** slot. -/
theorem entry_modify
    (hone : ∀ j ≠ i, (t.slots j).valid = true → (t.slots j).key ≠ (f (t.slots i)).key) (he : (t.modify i f).Entry ep k' v') :
    (k' = (f (t.slots i)).key ∧ v' = (f (t.slots i)).val) ∨ (k' ≠ (f (t.slots i)).key ∧
      ∃ j ≠ i, t.live ep j = true ∧ (t.slots j).key = k' ∧ (t.slots j).val = v') := by
  obtain ⟨j, hsaid⟩ := he
  by_cases hj : j = i
  · have hself : (t.modify i f).slots i = f (t.slots i) := update_self ..
    rw [hj, hself] at hsaid
    exact .inl ⟨hsaid.2.1.symm, hsaid.2.2.symm⟩
  · rw [says_congr (update_of_ne hj ..)] at hsaid
    exact .inr ⟨hsaid.2.1 ▸ hone j hj (live_iff.mp hsaid.1).1, j, hj, hsaid⟩

theorem Ok.entry_write (h : t.Ok σ P ep)
    (hi : (t.slots i).valid = true) (hkey : (f (t.slots i)).key = (t.slots i).key)
    (he : (t.modify i f).Entry ep k' v') :
    (k' = (t.slots i).key ∧ v' = (f (t.slots i)).val) ∨ (k' ≠ (t.slots i).key ∧ t.Entry ep k' v') := by
  rw [← hkey]
  refine (entry_modify (fun j hj hjv hjk => hj ?_) he).imp_right fun ⟨hk, j, _, hj⟩ => ⟨hk, j, hj⟩
  exact h.one j i hjv hi (hjk.trans hkey)

/-! ### Operations that keep the entries -/

/-- The tables have the **same keys** in the same slots. -/
structure SameKeys (t t' : Table ι K V) : Prop where
  key : ∀ i, (t'.slots i).key = (t.slots i).key
  valid : ∀ i, (t'.slots i).valid = (t.slots i).valid
  epoch : ∀ i, (t'.slots i).epoch = (t.slots i).epoch
  chains : t'.chains = t.chains
  used : t'.used = t.used
  ready : t'.ready = t.ready

theorem SameKeys.ok (h : SameKeys t t') (hok : t.Ok σ P ep) (hhand : t'.hand < σ.cap)
    (hcontent : ∀ i, (t'.slots i).valid = true → P (t'.slots i).val) : t'.Ok σ P ep where
  linked i ix := by rw [h.valid, h.key, h.chains]; exact hok.linked i ix
  member ix b i := by rw [h.valid, h.key, h.chains]; exact hok.member ix b i
  nodup ix b := by rw [h.chains]; exact hok.nodup ix b
  one i j := by rw [h.valid, h.valid, h.key, h.key]; exact hok.one i j
  stamp i := by rw [h.valid, h.epoch]; exact hok.stamp i
  content := hcontent
  unused i := by rw [h.used, h.valid]; exact hok.unused i
  ready i := by rw [h.valid, h.ready]; exact hok.ready i
  hand_lt := hhand

/-- The tables have the **same entries**: at most the clock differs. -/
structure SameEntries (t t' : Table ι K V) : Prop extends SameKeys t t' where
  val : ∀ i, (t'.slots i).val = (t.slots i).val

theorem SameEntries.trans {t'' : Table ι K V} (h : SameEntries t t') (h' : SameEntries t' t'') :
    SameEntries t t'' where
  key i := (h'.key i).trans (h.key i)
  valid i := (h'.valid i).trans (h.valid i)
  epoch i := (h'.epoch i).trans (h.epoch i)
  val i := (h'.val i).trans (h.val i)
  chains := h'.chains.trans h.chains
  used := h'.used.trans h.used
  ready := h'.ready.trans h.ready

theorem SameEntries.entry (h : SameEntries t t') : t'.Entry ep k v ↔ t.Entry ep k v := by
  simp only [Entry, live_iff, h.key, h.valid, h.epoch, h.val]

theorem SameEntries.ok (h : SameEntries t t') (hok : t.Ok σ P ep) (hhand : t'.hand < σ.cap) :
    t'.Ok σ P ep :=
  h.toSameKeys.ok hok hhand fun i => by rw [h.valid, h.val]; exact hok.content i

theorem sameEntries_modify_ref (b : Bool) : SameEntries t (t.modify i fun s => { s with ref := b })
    where
  key j := by by_cases hj : j = i <;> simp [modify, hj]
  valid j := by by_cases hj : j = i <;> simp [modify, hj]
  epoch j := by by_cases hj : j = i <;> simp [modify, hj]
  val j := by by_cases hj : j = i <;> simp [modify, hj]
  chains := rfl
  used := rfl
  ready := rfl

theorem sameEntries_touch : SameEntries t (t.touch i) := sameEntries_modify_ref true

theorem Ok.touch (h : t.Ok σ P ep) : (t.touch i).Ok σ P ep := sameEntries_touch.ok h h.hand_lt

theorem clockEvict_spec (ep : ℕ) (hcap : 0 < σ.cap) (fuel : ℕ) (t : Table ι K V)
    (hhand : t.hand < σ.cap) :
    SameEntries t (clockEvict σ ep fuel t).2 ∧ (clockEvict σ ep fuel t).1 < σ.cap ∧
      (clockEvict σ ep fuel t).2.hand < σ.cap := by
  have hmoved (t : Table ι K V) (hand : ℕ) : SameEntries t { t with hand } :=
    ⟨⟨fun _ => rfl, fun _ => rfl, fun _ => rfl, rfl, rfl, rfl⟩, fun _ => rfl⟩
  have hnext (i : ℕ) : (i + 1) % σ.cap < σ.cap := Nat.mod_lt _ hcap
  fun_induction clockEvict σ ep fuel t with
  | case1 => exact ⟨hmoved _ _, hhand, hhand⟩
  | case2 | case4 => exact ⟨hmoved _ _, hhand, hnext _⟩
  | case3 _ t _ _ _ ih =>
    obtain ⟨hsame, hlt, hhand'⟩ := ih (hnext _)
    exact ⟨((hmoved t _).trans (sameEntries_modify_ref false)).trans hsame, hlt, hhand'⟩

/-- New content in place changes **its key's entry**. -/
theorem Ok.setVal [DecidableEq K] (h : t.Ok σ P ep) (hfind : t.find σ ep k = some i) (hv : P v) :
    (t.setVal i v).Ok σ P ep ∧ ∀ k' v', (t.setVal i v).Entry ep k' v' →
      (k' = k ∧ v' = v) ∨ (k' ≠ k ∧ t.Entry ep k' v') := by
  obtain ⟨hlive, rfl⟩ := h.find_eq_some_iff.mp hfind
  obtain ⟨hvalid, hep⟩ := live_iff.mp hlive
  exact ⟨h.write hvalid ⟨rfl, hvalid, Nat.le_of_eq hep, hv⟩, fun k' v' => h.entry_write hvalid rfl⟩

/-! ### Dropping -/

theorem drop_chains (ix : ι) (b : ℕ) : (t.drop σ i).chains ix b =
    if b = σ.bucket ix (t.slots i).key then (t.chains ix b).erase i else t.chains ix b := rfl

theorem mem_drop_chains (h : t.Ok σ P ep) {ix : ι} :
    j ∈ (t.drop σ i).chains ix b ↔ j ∈ t.chains ix b ∧ j ≠ i := by
  rw [drop_chains]
  split
  · rw [(h.nodup ix b).mem_erase_iff, and_comm]
  · next hb =>
      refine ⟨fun hj => ⟨hj, ?_⟩, And.left⟩
      rintro rfl
      exact hb (h.member ix b j hj).2.symm

theorem drop_slots_of_ne (hj : j ≠ i) : (t.drop σ i).slots j = t.slots j := update_of_ne hj _ _

theorem drop_slots_self : (t.drop σ i).slots i = { t.slots i with valid := false } := update_self ..

theorem ne_of_valid_drop (hj : ((t.drop σ i).slots j).valid = true) : j ≠ i := by
  rintro rfl
  rw [drop_slots_self] at hj
  cases hj

theorem Ok.drop (h : t.Ok σ P ep) : (t.drop σ i).Ok σ P ep := by
  refine h.of_slot (fun j => drop_slots_of_ne) (fun ix b j => ?_) (fun ix b => ?_)
    (fun hi => absurd rfl (ne_of_valid_drop hi)) ⟨rfl, rfl, rfl⟩
  · rw [mem_drop_chains h, drop_slots_self]
    split_ifs with hji <;> simp [hji]
  · rw [drop_chains]
    split
    · exact (h.nodup ix b).erase i
    · exact h.nodup ix b

/-- A drop leaves the entries of the **other slots**. -/
theorem entry_drop_iff : (t.drop σ i).Entry ep k v ↔
      ∃ j ≠ i, t.live ep j = true ∧ (t.slots j).key = k ∧ (t.slots j).val = v := by
  constructor
  · rintro ⟨j, hj⟩
    have hne := ne_of_valid_drop (live_iff.mp hj.1).1
    exact ⟨j, hne, (says_congr (drop_slots_of_ne hne)).mp hj⟩
  · rintro ⟨j, hne, hj⟩
    exact ⟨j, (says_congr (drop_slots_of_ne hne)).mpr hj⟩

theorem entry_of_drop (h : (t.drop σ i).Entry ep k v) : t.Entry ep k v := by
  obtain ⟨j, -, hj⟩ := entry_drop_iff.mp h
  exact ⟨j, hj⟩

/-- Dropping a key **removes its entry** and no other. -/
theorem Ok.dropKey [DecidableEq K] (h : t.Ok σ P ep) (k : K) : (t.dropKey σ ep k).Ok σ P ep ∧
      ∀ k' v, (t.dropKey σ ep k).Entry ep k' v → k' ≠ k ∧ t.Entry ep k' v := by
  rw [Table.dropKey]
  cases hfind : t.find σ ep k with
  | none =>
    refine ⟨h, fun k' v hentry => ⟨?_, hentry⟩⟩
    rintro rfl
    exact h.not_entry_of_find hfind hentry
  | some i =>
    refine ⟨h.drop, fun k' v hentry => ⟨?_, entry_of_drop hentry⟩⟩
    rintro rfl
    obtain ⟨j, hne, hlive, hkey, -⟩ := entry_drop_iff.mp hentry
    have hj := h.find_eq_some_iff.mpr ⟨hlive, hkey⟩
    exact hne (Option.some.inj (hj.symm.trans hfind))

theorem Ok.dropMatching_list (p : K → Bool) (is : List ℕ) (h : t.Ok σ P ep) :
    (dropMatching σ p is t).Ok σ P ep ∧ ∀ k v, (dropMatching σ p is t).Entry ep k v →
      ∃ i, (p k = true → i ∉ is) ∧ t.live ep i = true ∧ (t.slots i).key = k ∧
      (t.slots i).val = v := by
  induction is generalizing t with
  | nil => refine ⟨h, fun k v ⟨i, hi⟩ => ⟨i, fun _ => not_mem_nil, hi⟩⟩
  | cons j is ih =>
    rw [dropMatching]
    by_cases hj : (p (t.slots j).key && (t.slots j).valid) = true
    · rw [if_pos hj]
      obtain ⟨hok, hentry⟩ := ih h.drop
      refine ⟨hok, fun k v he => ?_⟩
      obtain ⟨i, hi, hsaid⟩ := hentry k v he
      have hne := ne_of_valid_drop (live_iff.mp hsaid.1).1
      refine ⟨i, fun hp hmem => ?_, (says_congr (drop_slots_of_ne hne)).mp hsaid⟩
      exact hi hp ((mem_cons.mp hmem).resolve_left hne)
    · rw [if_neg hj]
      obtain ⟨hok, hentry⟩ := ih h
      refine ⟨hok, fun k v he => ?_⟩
      obtain ⟨i, hi, hlive, hkey, hval⟩ := hentry k v he
      refine ⟨i, fun hp hmem => hi hp ((mem_cons.mp hmem).resolve_left ?_), hlive, hkey, hval⟩
      rintro rfl
      exact hj (by rw [hkey, hp, (live_iff.mp hlive).1]; rfl)

/-- A walk removes **every entry** whose key satisfies `p`, if all are in its bucket. -/
theorem Ok.dropMatching (h : t.Ok σ P ep) (ix : ι) {p : K → Bool}
    (hp : ∀ k, p k = true → σ.bucket ix k = b) :
    (dropMatching σ p (t.chains ix b) t).Ok σ P ep ∧
      ∀ k v, (dropMatching σ p (t.chains ix b) t).Entry ep k v →
      p k = false ∧ t.Entry ep k v := by
  obtain ⟨hok, hentry⟩ := h.dropMatching_list p (t.chains ix b)
  refine ⟨hok, fun k v he => ?_⟩
  obtain ⟨i, hi, hlive, hkey, hval⟩ := hentry k v he
  refine ⟨?_, i, hlive, hkey, hval⟩
  by_contra hpk
  rw [Bool.not_eq_false] at hpk
  have hmem := h.linked i ix (live_iff.mp hlive).1
  rw [hkey, hp k hpk] at hmem
  exact hi hpk hmem

/-! ### Storing -/

/-- A slot that holds nothing. -/
structure Vacant (σ : Shape ι K) (P : V → Prop) (ep : ℕ) (t : Table ι K V) (i : ℕ) : Prop where
  ok : t.Ok σ P ep
  invalid : (t.slots i).valid = false
  used : i < t.used

/-- Taking a slot for a new key loses **at most** its entry. -/
theorem Ok.takeSlot (h : t.Ok σ P ep) :
    ∃ s, Vacant σ P ep s (t.takeSlot σ ep).1 ∧ s.ready = t.ready ∧
      (∀ k v, s.Entry ep k v → t.Entry ep k v) ∧
      (∀ j, (s.slots j).valid = true → (t.slots j).valid = true ∧
      (s.slots j).key = (t.slots j).key) ∧
      ∀ k, (t.takeSlot σ ep).2.claim σ (t.takeSlot σ ep).1 k =
      s.claim σ (t.takeSlot σ ep).1 k := by
  rw [Table.takeSlot]
  split
  · next hlt =>
      refine ⟨{ t with used := t.used + 1 },
        ⟨?_, h.unused t.used (Nat.le_refl _), Nat.lt_succ_self _⟩,
        rfl, fun _ _ => id, fun j hj => ⟨hj, rfl⟩, fun _ => rfl⟩
      exact { h with unused := fun i hi => h.unused i (Nat.le_of_succ_le hi) }
  · next hfull =>
      have hcap : 0 < σ.cap := Nat.zero_lt_of_lt h.hand_lt
      obtain ⟨hsame, hlt, hhand⟩ := clockEvict_spec ep hcap (2 * σ.cap) t h.hand_lt
      have hok := hsame.ok h hhand
      dsimp only
      generalize clockEvict σ ep (2 * σ.cap) t = r at *
      refine ⟨r.2.drop σ r.1, ⟨hok.drop, by rw [drop_slots_self], ?_⟩, hsame.ready,
        fun k v he => hsame.entry.mp (entry_of_drop he), fun j hj => ?_, fun k => ?_⟩
      · have hused : (r.2.drop σ r.1).used = t.used := hsame.used
        omega
      · have hne := ne_of_valid_drop hj
        rw [drop_slots_of_ne hne] at hj ⊢
        exact ⟨(hsame.valid j).symm.trans hj, hsame.key j⟩
      · simp only [Table.drop, claim, modify, update_self, Function.update_idem]

theorem claim_slots_of_ne (hj : j ≠ i) : (t.claim σ i k).slots j = t.slots j := update_of_ne hj _ _

theorem claim_slots_self : (t.claim σ i k).slots i = { t.slots i with valid := false, key := k } :=
  update_self ..

theorem claim_chains (ix : ι) (b : ℕ) : (t.claim σ i k).chains ix b =
    if b = σ.bucket ix k then i :: t.chains ix b else t.chains ix b := by
  simp only [claim, link, modify, update_self]

theorem put_slots_of_ne (hj : j ≠ i) : (t.put i ep v).slots j = t.slots j := update_of_ne hj _ _

theorem put_slots_self : (t.put i ep v).slots i =
    { t.slots i with valid := true, epoch := ep, ref := true, val := v } :=
  update_self ..

/-- Storing under a new key in a vacant slot. -/
theorem Vacant.put_claim (h : Vacant σ P ep t i)
    (hk : ∀ j, (t.slots j).valid = true → (t.slots j).key ≠ k) (hv : P v)
    (hready : t.ready = true) : ((t.claim σ i k).put i ep v).Ok σ P ep := by
  have hself : ((t.claim σ i k).put i ep v).slots i =
      { t.slots i with key := k, valid := true, epoch := ep, ref := true, val := v } := by
    rw [put_slots_self, claim_slots_self]
  have hchains (ix : ι) (b : ℕ) : ((t.claim σ i k).put i ep v).chains ix b = _ := claim_chains ix b
  have hout (ix : ι) (b : ℕ) := h.ok.not_mem_of_invalid h.invalid ix b
  refine h.ok.of_slot (i := i) (fun j hj => ?_) (fun ix b j => ?_) (fun ix b => ?_) (fun _ => ?_)
    ⟨rfl, rfl, rfl⟩
  · rw [put_slots_of_ne hj, claim_slots_of_ne hj]
  · rw [hself, hchains]
    by_cases hb : b = σ.bucket ix k <;> by_cases hji : j = i <;> simp [hb, hji, hout, eq_comm]
  · rw [hchains]
    split
    · exact nodup_cons.mpr ⟨hout ix b, h.ok.nodup ix b⟩
    · exact h.ok.nodup ix b
  · rw [hself]
    exact ⟨Nat.le_refl ep, hv, h.used, hready, fun j _ => hk j⟩

theorem unlink_claim : (t.claim σ i k).unlink σ i =
    t.modify i fun s => { s with valid := false, key := k } := by
  have hchains : ((t.claim σ i k).unlink σ i).chains = t.chains := by
    funext ix b
    have heq : ((t.claim σ i k).unlink σ i).chains ix b = _ := drop_chains ix b
    rw [heq, claim_slots_self, claim_chains]
    split
    · rw [erase_cons_head]
    · rfl
  calc (t.claim σ i k).unlink σ i
      = { t.claim σ i k with chains := ((t.claim σ i k).unlink σ i).chains } := rfl
    _ = { t.claim σ i k with chains := t.chains } := by rw [hchains]
    _ = _ := rfl

/-- A slot claimed and **given up** is as vacant as before. -/
theorem Vacant.unlink_claim (h : Vacant σ P ep t i) : ((t.claim σ i k).unlink σ i).Ok σ P ep ∧
      ∀ k' v, ((t.claim σ i k).unlink σ i).Entry ep k' v → t.Entry ep k' v := by
  rw [Table.unlink_claim]
  -- The slot is invalid before and after; a valid slot is another one, and unchanged.
  have hself : ((t.modify i fun s => { s with valid := false, key := k }).slots i).valid = false :=
    by simp [modify]
  have hother (j : ℕ) (hj : j ≠ i) :
      (t.modify i fun s => { s with valid := false, key := k }).slots j = t.slots j :=
    update_of_ne hj _ _
  refine ⟨h.ok.of_slot hother (fun ix b j => ?_) h.ok.nodup (by simp [hself]) ⟨rfl, rfl, rfl⟩, ?_⟩
  · have hout := h.ok.not_mem_of_invalid h.invalid ix b
    rw [hself]
    split_ifs with hji
    · exact iff_of_false (hji ▸ hout) And.left
    · rfl
  · rintro k' v ⟨j, hj⟩
    refine ⟨j, (says_congr (hother j ?_)).mp hj⟩
    rintro rfl
    simp [live_iff, hself] at hj

variable [DecidableEq K]

/-- A store **replaces its key's entry**; it may lose one other. -/
theorem Ok.install (h : t.Ok σ P ep) (hready : t.ready = true) (hv : P v) (k : K) :
    ((t.installSlot σ ep k).2.put (t.installSlot σ ep k).1 ep v).Ok σ P ep ∧
      ∀ k' v', ((t.installSlot σ ep k).2.put (t.installSlot σ ep k).1 ep v).Entry ep k' v' →
      (k' = k ∧ v' = v) ∨ (k' ≠ k ∧ t.Entry ep k' v') := by
  rw [installSlot]
  cases hslot : t.keySlot σ k with
  | some i =>
    obtain ⟨hvalid, rfl⟩ := h.keySlot_eq_some_iff.mp hslot
    exact ⟨h.write hvalid ⟨rfl, rfl, Nat.le_refl ep, hv⟩, fun k' v' => h.entry_write hvalid rfl⟩
  | none =>
    obtain ⟨s, hvac, hsready, hentry, hsub, hclaim⟩ := h.takeSlot
    have hnokey (j : ℕ) (hj : (s.slots j).valid = true) : (s.slots j).key ≠ k := by
      intro hkey
      obtain ⟨hjt, hkt⟩ := hsub j hj
      have hfound := h.keySlot_eq_some_iff.mpr ⟨hjt, hkt.symm.trans hkey⟩
      rw [hslot] at hfound
      cases hfound
    rw [hclaim]
    generalize (t.takeSlot σ ep).1 = i at *
    refine ⟨hvac.put_claim hnokey hv (hsready.trans hready), fun k' v' he => ?_⟩
    have hkey : ((s.claim σ i k).slots i).key = k := by rw [claim_slots_self]
    have hone (j : ℕ) (hj : j ≠ i) (hjv : ((s.claim σ i k).slots j).valid = true) :
        ((s.claim σ i k).slots j).key ≠ ((s.claim σ i k).slots i).key := by
      rw [claim_slots_of_ne hj] at hjv ⊢
      rw [hkey]
      exact hnokey j hjv
    obtain hnew | ⟨hk, j, hj, hsaid⟩ := entry_modify hone he
    · rw [hkey] at hnew
      exact .inl hnew
    · rw [hkey] at hk
      exact .inr ⟨hk, hentry k' v' ⟨j, (says_congr (claim_slots_of_ne hj)).mp hsaid⟩⟩

/-- A store **given up** in a slot that never had content adds nothing. -/
theorem Ok.abandon (h : t.Ok σ P ep) (k : K)
    (hbad : ¬P ((t.installSlot σ ep k).2.slots (t.installSlot σ ep k).1).val) :
    ((t.installSlot σ ep k).2.unlink σ (t.installSlot σ ep k).1).Ok σ P ep ∧
      ∀ k' v', ((t.installSlot σ ep k).2.unlink σ (t.installSlot σ ep k).1).Entry ep k' v' →
      t.Entry ep k' v' := by
  rw [installSlot] at hbad ⊢
  cases hslot : t.keySlot σ k with
  | some i =>
    rw [hslot] at hbad
    exact absurd (h.content i (h.keySlot_eq_some_iff.mp hslot).1) hbad
  | none =>
    obtain ⟨s, hvac, -, hentry, -, hclaim⟩ := h.takeSlot
    rw [hclaim]
    obtain ⟨hok, hsub⟩ := hvac.unlink_claim
    exact ⟨hok, fun k' v' he => hentry k' v' (hsub k' v' he)⟩

end Table

end ClockTable
