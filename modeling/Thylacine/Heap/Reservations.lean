import Thylacine.Lib.Extents

/-!
# The Reservations of the Userland Heap

The platform below the allocator of `thyla-heap`: a table of lazy reservations, each carved from
the front by a bump pointer. `usize` is the naturals below `2 ^ 64`, and the arithmetic wraps as
the release build's does; the invariant shows that it never has to.

The backend is the environment: what it answers to `reserve`, `decommit` and `detach` comes with
the call. `Honest` is what it promises, that a range it hands out is a range of addresses that
meets no range still reserved.

## Main results

* `reserveLoop_terminates`: the retry loop ends within `attemptsMax` attempts.
* `one_segment_each`: the reservations do not meet, each is carved from its base, and what holds of
  every call after every run.
-/

namespace Thylacine.Heap

open List

/-! ### The table -/

def PAGE : ℕ := 4096

/-- The first reservation may double this many times. -/
def RESERVATION_DOUBLINGS : ℕ := 17

def RESERVATIONS_MAX : ℕ := 64

/-- One more than the largest `usize`. -/
def usizeEnd : ℕ := 2 ^ 64

def wrappingAdd (a b : ℕ) : ℕ := (a + b) % usizeEnd

def wrappingSub (a b : ℕ) : ℕ := (a + (usizeEnd - b)) % usizeEnd

def checkedAdd (a b : ℕ) : Option ℕ := if a + b < usizeEnd then some (a + b) else none

def checkedMul (a b : ℕ) : Option ℕ := if a * b < usizeEnd then some (a * b) else none

structure Reservation where
  base : ℕ
  len : ℕ
  /-- Where the next carve goes: `[base, bump)` is carved. -/
  bump : ℕ
  deriving DecidableEq, Repr

structure Table where
  /-- `live[..n]`, oldest first. -/
  live : List Reservation
  carved : ℕ
  direct : ℕ
  peak : ℕ
  deriving DecidableEq, Repr

namespace Table

def new : Table := ⟨[], 0, 0, 0⟩

def grew (t : Table) : Table := { t with peak := max t.peak (wrappingAdd t.carved t.direct) }

end Table

namespace Reservation

/-- What a carve of the newest reservation has left. -/
def room (r : Reservation) : ℕ := wrappingSub (wrappingAdd r.base r.len) r.bump

/-- The bytes that are carved. -/
def carvedLen (r : Reservation) : ℕ := wrappingSub r.bump r.base

end Reservation

/-- Attempts of the retry loop: a length below `2 ^ 64` is halved at most 64 times. -/
def attemptsMax : ℕ := 65

/-- The `loop` of `carve`: ask for `len`, then half of it, down to `least`; `reserve k len` answers
the `k`-th attempt. The outer `none` is a loop still running after `fuel` attempts, `some none` its
`return None`. -/
def reserveLoop (reserve : ℕ → ℕ → Option ℕ) (least : ℕ) : ℕ → ℕ → ℕ → Option (Option (ℕ × ℕ))
  | 0, _, _ => none
  | fuel + 1, k, len =>
    match reserve k len with
    | some base => some (some (base, len))
    | none =>
      if len = least then some none
      else reserveLoop reserve least fuel (k + 1) (max (len / 2 / PAGE * PAGE) least)

namespace Table

variable (firstLen : ℕ) (reserve : ℕ → ℕ → Option ℕ) (t : Table)

/-- The carve that bumps the newest reservation `r`. -/
def carveLatest (older : List Reservation) (r : Reservation) (size : ℕ) : Table :=
  grew { t with
    live := older ++ [{ r with bump := wrappingAdd r.bump size }]
    carved := wrappingAdd t.carved size }

/-- The carve that opens a reservation. -/
def carveFirst (base len size : ℕ) : Table :=
  grew { t with
    live := t.live ++ [⟨base, len, wrappingAdd base size⟩]
    carved := wrappingAdd t.carved size }

/-- `carve`, if the newest reservation has no room. -/
def carveReserve (size : ℕ) : Option (Table × Option ℕ) :=
  if t.live.length = RESERVATIONS_MAX then some (t, none)
  else
    match checkedAdd size PAGE with
    | none => some (t, none)
    | some least =>
      match checkedMul firstLen (2 ^ min t.live.length RESERVATION_DOUBLINGS) with
      | none => some (t, none)
      | some want =>
        match reserveLoop reserve least attemptsMax 0 (max want least) with
        | none => none
        | some none => some (t, none)
        | some (some (base, len)) => some (t.carveFirst base len size, some base)

/-- The outer `none` is a retry loop that never ends. -/
def carve (size : ℕ) : Option (Table × Option ℕ) :=
  if size = 0 ∨ size % PAGE ≠ 0 then some (t, none)
  else
    match t.live.getLast? with
    | none => t.carveReserve firstLen reserve size
    | some r =>
      -- Strictly more room than asked: the tail of a reservation is never given away.
      if r.room > size then some (t.carveLatest t.live.dropLast r size, some r.bump)
      else t.carveReserve firstLen reserve size

/-- `decommit` is the backend's answer. -/
def shrink (decommit : Bool) (ptr old new : ℕ) : Table × Bool :=
  match t.live.getLast? with
  | none => (t, false)
  | some r =>
    if ptr ≠ r.base ∨ r.carvedLen ≠ old ∨ new > old ∨ (old - new) % PAGE ≠ 0 then (t, false)
    else if new = old then (t, true)
    else if decommit = false then (t, false)
    else
      ({ t with
          live := t.live.dropLast ++ [{ r with bump := wrappingAdd ptr new }]
          carved := wrappingSub t.carved (old - new) }, true)

/-- `detach` is the backend's answer. -/
def release (detach : Bool) (ptr size : ℕ) : Table × Bool :=
  match t.live.findIdx? (·.base = ptr) with
  | none => (t, false)
  | some i =>
    match t.live[i]? with
    | none => (t, false)
    | some r =>
      if r.carvedLen ≠ size then (t, false)
      else if detach = false then (t, false)
      else ({ t with live := t.live.eraseIdx i, carved := wrappingSub t.carved size }, true)

end Table

/-! ### The invariant -/

namespace Reservation

def stop (r : Reservation) : ℕ := r.base + r.len

/-- A range of addresses, carved from its base to below its end. -/
structure Ok (r : Reservation) : Prop where
  base_le : r.base ≤ r.bump
  bump_lt : r.bump < r.stop
  stop_le : r.stop ≤ usizeEnd
  len_lt : r.len < usizeEnd

/-- Two reservations that do not meet. -/
abbrev Apart : Reservation → Reservation → Prop := Extents.Apart base stop

variable {r s : Reservation}

theorem Ok.room_eq (h : r.Ok) : r.room = r.stop - r.bump := by
  have := h.base_le; have := h.bump_lt; have := h.stop_le; have := h.len_lt
  simp only [room, wrappingSub, wrappingAdd, stop, usizeEnd] at *
  omega

theorem Ok.carvedLen_eq (h : r.Ok) : r.carvedLen = r.bump - r.base := by
  have := h.base_le; have := h.bump_lt; have := h.stop_le
  simp only [carvedLen, wrappingSub, usizeEnd] at *
  omega

/-- The carved parts of two reservations do not **touch**. -/
theorem Apart.segments (h : Apart r s) (hr : r.Ok) (hs : s.Ok) :
    r.bump < s.base ∨ s.bump < r.base :=
  h.imp hr.bump_lt.trans_le hs.bump_lt.trans_le

end Reservation

namespace Table

/-- The bytes carved from all reservations. -/
def carvedBytes (live : List Reservation) : ℕ := (live.map fun r => r.bump - r.base).sum

/-- The reservations are apart, none carved to its end. -/
structure Standing (live : List Reservation) : Prop where
  ok : ∀ r ∈ live, r.Ok
  apart : live.Pairwise Reservation.Apart

/-- The table's **invariant**. -/
structure Ok (t : Table) : Prop where
  standing : Standing t.live
  carved_eq : t.carved = carvedBytes t.live
  length_le : t.live.length ≤ RESERVATIONS_MAX

@[simp] theorem carvedBytes_append (l l' : List Reservation) :
    carvedBytes (l ++ l') = carvedBytes l + carvedBytes l' := by
  simp [carvedBytes]

@[simp] theorem carvedBytes_singleton (r : Reservation) : carvedBytes [r] = r.bump - r.base := by
  simp [carvedBytes]

namespace Standing

variable {live l l' : List Reservation} {r r' : Reservation}

/-- The count of carved bytes **never wraps**. -/
theorem carvedBytes_lt (h : Standing live) : carvedBytes live < usizeEnd := by
  have hseg : live.Pairwise (Extents.Apart Reservation.base Reservation.bump) :=
    h.apart.imp_of_mem fun hr hs hrs => (hrs.segments (h.ok _ hr) (h.ok _ hs)).imp le_of_lt le_of_lt
  have hbound : ∀ r ∈ live, r.bump ≤ usizeEnd - 1 := fun r hr =>
    Nat.le_sub_one_of_lt ((h.ok r hr).bump_lt.trans_le (h.ok r hr).stop_le)
  have hle := Extents.sum_length_le hseg hbound
  have : carvedBytes live ≤ usizeEnd - 1 := hle
  simp only [usizeEnd] at *
  omega

/-- Any of the reservations may be dropped. -/
theorem sublist (h : Standing live) (hsub : l.Sublist live) : Standing l :=
  ⟨fun r hr => h.ok r (hsub.subset hr), h.apart.sublist hsub⟩

/-- A reservation that meets no other joins them. -/
theorem snoc (h : Standing live) (hr : r.Ok) (hapart : ∀ s ∈ live, s.Apart r) :
    Standing (live ++ [r]) where
  ok := forall_mem_append.mpr ⟨h.ok, forall_mem_singleton.mpr hr⟩
  apart := pairwise_append.mpr
    ⟨h.apart, pairwise_singleton _ r, fun s hs => forall_mem_singleton.mpr (hapart s hs)⟩

/-- The newest bump pointer may **move** within its reservation. -/
theorem moveBump (h : Standing (l ++ [r])) (bump : ℕ) (hle : r.base ≤ bump)
    (hlt : bump < r.stop) : Standing (l ++ [{ r with bump := bump }]) := by
  have hr := h.ok r (by simp)
  obtain ⟨-, -, hapart⟩ := pairwise_append.mp h.apart
  exact (h.sublist (sublist_append_left l [r])).snoc ⟨hle, hlt, hr.stop_le, hr.len_lt⟩
    fun s hs => hapart s hs r (mem_singleton_self r)

end Standing

theorem Ok.new : Ok new := ⟨⟨by simp [Table.new], by simp [Table.new]⟩, rfl, by simp [Table.new]⟩

theorem Ok.grew {t : Table} (h : Ok t) : Ok t.grew := ⟨h.standing, h.carved_eq, h.length_le⟩

/-- The newest reservation, and those before it. -/
theorem live_eq_of_getLast? {t : Table} {r : Reservation} (h : t.live.getLast? = some r) :
    t.live = t.live.dropLast ++ [r] := by
  obtain ⟨l, hl⟩ := getLast?_eq_some_iff.mp h
  rw [hl, dropLast_concat]

/-! ### The retry loop -/

/-- The retry loop **terminates**: from below `2 ^ fuel`, or the least length, in `fuel + 1`
attempts. -/
theorem reserveLoop_isSome (reserve : ℕ → ℕ → Option ℕ) (least : ℕ) :
    ∀ fuel k len n, n < 2 ^ fuel → least ≤ len → len ≤ max n least →
      (reserveLoop reserve least (fuel + 1) k len).isSome := by
  intro fuel
  induction fuel with
  | zero =>
    intro k len n hn hle hlen
    have hlen : len = least := by
      omega
    rw [reserveLoop]
    cases reserve k len with
    | some => rfl
    | none => simp [hlen]
  | succ fuel ih =>
    intro k len n hn hle hlen
    rw [reserveLoop]
    cases reserve k len with
    | some => rfl
    | none =>
      by_cases heq : len = least
      · simp [heq]
      · have := Nat.div_mul_le_self (len / 2) PAGE
        simpa [heq] using ih (k + 1) _ (n / 2) (by omega) (le_max_right _ _) (by omega)

theorem reserveLoop_terminates (reserve : ℕ → ℕ → Option ℕ) {least len : ℕ} (k : ℕ)
    (hle : least ≤ len) (hlen : len < usizeEnd) :
    ∃ answer, reserveLoop reserve least attemptsMax k len = some answer :=
  Option.isSome_iff_exists.mp
    (reserveLoop_isSome reserve least 64 k len len hlen hle (le_max_left _ _))

/-- The loop returns the backend's answer, for a length from the least to the first. -/
theorem reserveLoop_some {reserve : ℕ → ℕ → Option ℕ} {least base l fuel k len : ℕ}
    (hle : least ≤ len) (h : reserveLoop reserve least fuel k len = some (some (base, l))) :
    least ≤ l ∧ l ≤ len ∧ ∃ j, reserve j l = some base := by
  fun_induction reserveLoop reserve least fuel k len with
  | case1 | case3 => cases h
  | case2 fuel k len _ hres =>
    cases h
    exact ⟨hle, le_refl _, k, hres⟩
  | case4 fuel k len hres hne ih =>
    obtain ⟨hlow, hup, hans⟩ := ih (le_max_right _ _) h
    have := Nat.div_mul_le_self (len / 2) PAGE
    exact ⟨hlow, hup.trans (by omega), hans⟩

end Table

/-! ### The calls -/

/-- The backend's **promise** for a call: it reserves a range of addresses that meets no standing
reservation. -/
def Honest (live : List Reservation) (reserve : ℕ → ℕ → Option ℕ) : Prop :=
  ∀ k len base, reserve k len = some base →
    base + len ≤ usizeEnd ∧ ∀ r ∈ live, r.stop ≤ base ∨ base + len ≤ r.base

/-- What a carve did: it extended the newest segment, or opened a reservation, by bytes of no
segment. -/
structure Carved (t t' : Table) (size va : ℕ) : Prop where
  pos : 0 < size
  place :
    (∃ older r, t.live = older ++ [r] ∧ va = r.bump ∧
      t'.live = older ++ [{ r with bump := va + size }]) ∨
    ∃ len, t'.live = t.live ++ [⟨va, len, va + size⟩]
  fresh : ∀ r ∈ t.live, va + size ≤ r.base ∨ r.bump ≤ va
  ok : t'.Ok

namespace Table

variable {firstLen ptr : ℕ} {reserve : ℕ → ℕ → Option ℕ} {t t' : Table} {size va : ℕ}

theorem Ok.carveLatest (h : t.Ok) {r : Reservation} (hlast : t.live.getLast? = some r)
    (hpos : 0 < size) (hroom : r.room > size) :
    Carved t (t.carveLatest t.live.dropLast r size) size r.bump := by
  have hlive := live_eq_of_getLast? hlast
  have hstand := hlive ▸ h.standing
  have hr := hstand.ok r (by simp)
  rw [hr.room_eq] at hroom
  have hend : r.bump + size < r.stop := by omega
  have hbump : wrappingAdd r.bump size = r.bump + size :=
    Nat.mod_eq_of_lt (hend.trans_le hr.stop_le)
  have hmoved := hstand.moveBump (r.bump + size) (hr.base_le.trans (Nat.le_add_right _ _)) hend
  have hbytes : carvedBytes (t.live.dropLast ++ [{ r with bump := r.bump + size }]) =
      t.carved + size := by
    rw [h.carved_eq, hlive, dropLast_concat, carvedBytes_append, carvedBytes_append,
      carvedBytes_singleton, carvedBytes_singleton]
    have := hr.base_le
    dsimp only
    omega
  have hcarved : wrappingAdd t.carved size = t.carved + size :=
    Nat.mod_eq_of_lt (hbytes ▸ hmoved.carvedBytes_lt)
  have hlen : (t.live.dropLast ++ [{ r with bump := r.bump + size }]).length = t.live.length := by
    rw [hlive, dropLast_concat, length_append, length_append]
    rfl
  refine ⟨hpos, .inl ⟨t.live.dropLast, r, hlive, rfl, ?_⟩, fun s hs => ?_, ?_⟩
  · rw [Table.carveLatest, hbump]
    rfl
  · rw [hlive] at hs
    rcases mem_append.mp hs with hs | hs
    · obtain ⟨-, -, hapart⟩ := pairwise_append.mp hstand.apart
      have hs' := hstand.ok s (mem_append_left _ hs)
      have := hs'.bump_lt
      have := hr.base_le
      rcases hapart s hs r (mem_singleton_self r) with hlow | hhigh
      · exact .inr (by omega)
      · exact .inl (by omega)
    · rw [mem_singleton.mp hs]
      exact .inr (le_refl _)
  · rw [Table.carveLatest, hbump, hcarved]
    exact grew ⟨hmoved, hbytes.symm, hlen.trans_le h.length_le⟩

theorem Ok.carveFirst (h : t.Ok) {base len : ℕ} (hpos : 0 < size) (hfits : size < len)
    (hlen : len < usizeEnd) (hcount : t.live.length < RESERVATIONS_MAX)
    (hrange : base + len ≤ usizeEnd)
    (hapart : ∀ r ∈ t.live, r.stop ≤ base ∨ base + len ≤ r.base) :
    Carved t (t.carveFirst base len size) size base := by
  have hbump : wrappingAdd base size = base + size := Nat.mod_eq_of_lt (by omega)
  have hr : Reservation.Ok ⟨base, len, base + size⟩ :=
    ⟨Nat.le_add_right _ _, Nat.add_lt_add_left hfits base, hrange, hlen⟩
  have hsnoc := h.standing.snoc hr hapart
  have hbytes : carvedBytes (t.live ++ [⟨base, len, base + size⟩]) = t.carved + size := by
    rw [carvedBytes_append, carvedBytes_singleton, h.carved_eq]
    dsimp only
    omega
  have hcarved : wrappingAdd t.carved size = t.carved + size :=
    Nat.mod_eq_of_lt (hbytes ▸ hsnoc.carvedBytes_lt)
  refine ⟨hpos, .inr ⟨len, ?_⟩, fun s hs => ?_, ?_⟩
  · rw [Table.carveFirst, hbump]
    rfl
  · have := (h.standing.ok s hs).bump_lt
    rcases hapart s hs with hlow | hhigh
    · exact .inr (by omega)
    · exact .inl (by omega)
  · rw [Table.carveFirst, hbump, hcarved]
    refine grew ⟨hsnoc, hbytes.symm, ?_⟩
    rw [length_append]
    exact hcount

/-- A carve **fails** and changes nothing, or it carved. -/
def CarveSpec (t : Table) (size : ℕ) (result : Option (Table × Option ℕ)) : Prop :=
  result = some (t, none) ∨ ∃ t' va, result = some (t', some va) ∧ Carved t t' size va

theorem Ok.carveReserve (h : t.Ok) (hres : Honest t.live reserve) (hpos : 0 < size) :
    CarveSpec t size (t.carveReserve firstLen reserve size) := by
  rw [Table.carveReserve]
  split
  · exact .inl rfl
  · rename_i hfull
    split
    · exact .inl rfl
    · rename_i least hleast
      split
      · exact .inl rfl
      · rename_i want hwant
        obtain ⟨hsum, rfl⟩ : size + PAGE < usizeEnd ∧ size + PAGE = least := by
          simpa [checkedAdd] using hleast
        have hmul : want < usizeEnd := by
          simp only [checkedMul, Option.ite_none_right_eq_some, Option.some.injEq] at hwant
          exact hwant.2 ▸ hwant.1
        obtain ⟨answer, hans⟩ := reserveLoop_terminates reserve 0 (le_max_right want _)
          (max_lt hmul hsum)
        rw [hans]
        rcases answer with - | ⟨base, len⟩
        · exact .inl rfl
        · obtain ⟨hlow, hup, k, hk⟩ := reserveLoop_some (le_max_right want _) hans
          obtain ⟨hrange, hapart⟩ := hres k len base hk
          refine .inr ⟨_, base, rfl, h.carveFirst hpos ?_ (hup.trans_lt (max_lt hmul hsum))
            (lt_of_le_of_ne h.length_le hfull) hrange hapart⟩
          exact lt_of_lt_of_le (Nat.lt_add_of_pos_right (by decide)) hlow

theorem Ok.carve (h : t.Ok) (hres : Honest t.live reserve) :
    CarveSpec t size (t.carve firstLen reserve size) := by
  rw [Table.carve]
  split
  · exact .inl rfl
  · rename_i hsize
    have hpos : 0 < size := pos_of_ne_zero fun h0 => hsize (.inl h0)
    split
    · exact h.carveReserve hres hpos
    · rename_i r hlast
      split
      · exact .inr ⟨_, _, rfl, h.carveLatest hlast hpos ‹_›⟩
      · exact h.carveReserve hres hpos

theorem Ok.shrink (h : t.Ok) (decommit : Bool) (ptr old new : ℕ) :
    (t.shrink decommit ptr old new).1.Ok := by
  fun_cases Table.shrink t decommit ptr old new with
  | case1 | case2 | case3 | case4 => exact h
  | case5 r hlast hargs =>
    simp only [not_or, not_not] at hargs
    obtain ⟨rfl, hold, hnew, -⟩ := hargs
    have hlive := live_eq_of_getLast? hlast
    have hstand := hlive ▸ h.standing
    have hr := hstand.ok r (by simp)
    rw [hr.carvedLen_eq] at hold
    have := hr.bump_lt
    have hbump : wrappingAdd r.base new = r.base + new :=
      Nat.mod_eq_of_lt (lt_of_lt_of_le (by omega) hr.stop_le)
    have hmoved := hstand.moveBump (r.base + new) (Nat.le_add_right _ _) (by omega)
    have hsum : t.carved = carvedBytes t.live.dropLast + old := by
      rw [h.carved_eq, hlive, dropLast_concat, carvedBytes_append, carvedBytes_singleton, hold]
    have hlt := h.standing.carvedBytes_lt
    rw [← h.carved_eq] at hlt
    refine ⟨hbump.symm ▸ hmoved, ?_, ?_⟩
    · rw [carvedBytes_append, carvedBytes_singleton, hbump]
      simp only [wrappingSub, usizeEnd] at *
      omega
    · have hlen := h.length_le
      rw [hlive] at hlen
      simpa using hlen

theorem Ok.release (h : t.Ok) (detach : Bool) (ptr size : ℕ) :
    (t.release detach ptr size).1.Ok := by
  fun_cases Table.release t detach ptr size with
  | case1 | case2 | case3 | case4 => exact h
  | case5 i hidx r hget hsize =>
    obtain ⟨hi, hri⟩ := List.getElem?_eq_some_iff.mp hget
    have hr := h.standing.ok r (mem_of_getElem? hget)
    have hsize : r.bump - r.base = size := by
      rw [← hr.carvedLen_eq]
      exact not_not.mp hsize
    have hsplit : t.live = t.live.take i ++ r :: t.live.drop (i + 1) := by
      rw [← hri, getElem_cons_drop, take_append_drop]
    have hsum : t.carved = carvedBytes (t.live.eraseIdx i) + size := by
      rw [h.carved_eq, eraseIdx_eq_take_drop_succ, carvedBytes_append]
      conv_lhs => rw [hsplit, ← singleton_append, carvedBytes_append, carvedBytes_append,
        carvedBytes_singleton, hsize]
      omega
    have hlt := h.standing.carvedBytes_lt
    rw [← h.carved_eq] at hlt
    refine ⟨h.standing.sublist (eraseIdx_sublist _ _), ?_,
      (length_eraseIdx_le _ _).trans h.length_le⟩
    simp only [wrappingSub, usizeEnd] at *
    omega

/-- A shrink that **fails** has changed nothing. -/
theorem shrink_eq_of_false {decommit : Bool} {old new : ℕ}
    (h : (t.shrink decommit ptr old new).2 = false) :
    (t.shrink decommit ptr old new).1 = t := by
  revert h
  fun_cases shrink t decommit ptr old new with
  | case1 | case2 | case3 | case4 => exact fun _ => rfl
  | case5 => rintro ⟨⟩

/-- A release that **fails** has changed nothing. -/
theorem release_eq_of_false {detach : Bool} {size : ℕ}
    (h : (t.release detach ptr size).2 = false) : (t.release detach ptr size).1 = t := by
  revert h
  fun_cases release t detach ptr size with
  | case1 | case2 | case3 | case4 => exact fun _ => rfl
  | case5 => rintro ⟨⟩

end Table

/-! ### Runs -/

/-- A call of the allocator, with the backend's answer. -/
inductive Call
  | carve (reserve : ℕ → ℕ → Option ℕ) (size : ℕ)
  | shrink (decommit : Bool) (ptr old new : ℕ)
  | release (detach : Bool) (ptr size : ℕ)

/-- A retry loop without end would leave the table. -/
def step (firstLen : ℕ) (t : Table) : Call → Table
  | .carve reserve size => ((t.carve firstLen reserve size).map Prod.fst).getD t
  | .shrink decommit ptr old new => (t.shrink decommit ptr old new).1
  | .release detach ptr size => (t.release detach ptr size).1

def run (firstLen : ℕ) (calls : List Call) : Table := calls.foldl (step firstLen) Table.new

/-- The backend keeps its promise in this call. -/
def HonestCall (t : Table) : Call → Prop
  | .carve reserve _ => Honest t.live reserve
  | _ => True

/-- The backend keeps its promise throughout the run. -/
def HonestRun (firstLen : ℕ) : Table → List Call → Prop
  | _, [] => True
  | t, c :: calls => HonestCall t c ∧ HonestRun firstLen (step firstLen t c) calls

theorem Table.Ok.step {firstLen : ℕ} {t : Table} (h : t.Ok) (c : Call) (hc : HonestCall t c) :
    (Heap.step firstLen t c).Ok := by
  cases c with
  | carve reserve size =>
    rw [Heap.step]
    have hspec : CarveSpec t size (t.carve firstLen reserve size) := h.carve hc
    rcases hspec with hfail | ⟨t', va, hok, hcarved⟩
    · rw [hfail]
      exact h
    · rw [hok]
      exact hcarved.ok
  | shrink decommit ptr old new => exact h.shrink decommit ptr old new
  | release detach ptr size => exact h.release detach ptr size

theorem run_ok {firstLen : ℕ} {calls : List Call} :
    ∀ {t : Table}, t.Ok → HonestRun firstLen t calls → (calls.foldl (step firstLen) t).Ok := by
  induction calls with
  | nil => exact fun hok _ => hok
  | cons c calls ih =>
    intro t hok hrun
    exact ih (hok.step c hrun.1) hrun.2

/-- **One segment for each reservation.** -/
structure OneSegmentEach (t : Table) : Prop where
  /-- No two reservations meet. -/
  disjoint : t.live.Pairwise fun r s => r.stop ≤ s.base ∨ s.stop ≤ r.base
  /-- The bump pointer is in the reservation, strictly below its end. -/
  bump : ∀ r ∈ t.live, r.base ≤ r.bump ∧ r.bump < r.base + r.len
  carved : t.carved = (t.live.map fun r => r.bump - r.base).sum
  /-- No two carved segments touch, from either side. -/
  never_touch : t.live.Pairwise fun r s => r.bump < s.base ∨ s.bump < r.base

theorem Table.Ok.oneSegmentEach {t : Table} (h : t.Ok) : OneSegmentEach t where
  disjoint := h.standing.apart
  bump r hr := ⟨(h.standing.ok r hr).base_le, (h.standing.ok r hr).bump_lt⟩
  carved := h.carved_eq
  never_touch := h.standing.apart.imp_of_mem fun hr hs hrs =>
    hrs.segments (h.standing.ok _ hr) (h.standing.ok _ hs)

/-- After **every run** of carves, shrinks and releases, whatever their arguments and whichever
calls the backend refuses: each reservation is one segment; every carve ends, changing nothing if it
fails, and otherwise handing out bytes that were in no segment, from the end of the newest one or
the base of a new one; and a shrink or release that fails has changed nothing. -/
theorem one_segment_each (firstLen : ℕ) (calls : List Call)
    (h : HonestRun firstLen Table.new calls) :
    OneSegmentEach (run firstLen calls) ∧
    (∀ reserve size, Honest (run firstLen calls).live reserve →
      (run firstLen calls).carve firstLen reserve size = some (run firstLen calls, none) ∨
      ∃ t' va, (run firstLen calls).carve firstLen reserve size = some (t', some va) ∧
        Carved (run firstLen calls) t' size va) ∧
    (∀ decommit ptr old new, ((run firstLen calls).shrink decommit ptr old new).2 = false →
      ((run firstLen calls).shrink decommit ptr old new).1 = run firstLen calls) ∧
    ∀ detach ptr size, ((run firstLen calls).release detach ptr size).2 = false →
      ((run firstLen calls).release detach ptr size).1 = run firstLen calls := by
  have hok : (run firstLen calls).Ok := run_ok Table.Ok.new h
  refine ⟨hok.oneSegmentEach, fun reserve size hres => hok.carve hres, ?_, ?_⟩
  · intro decommit ptr old new hfail
    exact Table.shrink_eq_of_false hfail
  · intro detach ptr size hfail
    exact Table.release_eq_of_false hfail

/-- A backend that grants only a call's `k`-th request, for `len` bytes. -/
def grantOnce (k len base : ℕ) : ℕ → ℕ → Option ℕ :=
  fun k' len' => if k' = k ∧ len' = len then some base else none

theorem honest_grantOnce {live : List Reservation} {k len base : ℕ} (hrange : base + len ≤ usizeEnd)
    (hapart : ∀ r ∈ live, r.stop ≤ base ∨ base + len ≤ r.base) :
    Honest live (grantOnce k len base) := by
  intro k' len' base' h
  obtain ⟨⟨-, rfl⟩, rfl⟩ : (k' = k ∧ len' = len) ∧ base = base' := by simpa [grantOnce] using h
  exact ⟨hrange, hapart⟩

/-- Two reservations, the first of half the length; the newer is shrunk, the older released. -/
def twoReservations : List Call :=
  [.carve (grantOnce 1 32768 65536) 8192, .carve (fun _ _ => none) 4096,
    .carve (grantOnce 0 131072 262144) 65536, .shrink true 262144 65536 4096,
    .release true 65536 12288]

theorem one_segment_each_two_reservations :
    HonestRun 65536 Table.new twoReservations ∧
    (run 65536 twoReservations).live = [⟨262144, 131072, 266240⟩] ∧
    OneSegmentEach (run 65536 twoReservations) := by
  have hrun : HonestRun 65536 Table.new twoReservations :=
    ⟨honest_grantOnce (by decide) (by decide), (fun _ _ _ h => nomatch h),
      honest_grantOnce (by decide) (by decide +kernel), trivial, trivial, trivial⟩
  exact ⟨hrun, by decide +kernel, (one_segment_each 65536 twoReservations hrun).1⟩

end Thylacine.Heap
