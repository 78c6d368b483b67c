import Mathlib.Data.Finset.Basic

/-!
# The Life of a Burrow

The two reference counts of `kernel/burrow.c` and the record of who paid for a region. A hold of
`v->lock` is one step, and so is the free that a drop runs, or leaves to its caller, after the
unlock. Any number of holders interleave.

The counts are the code's; beside them stand, for the reasoning only, the holders themselves:
`handles` has the space on whose behalf each handle reference is held (a Loom's pin is held for
the space of its owner, a pin of the Weft registry for the registrant's), `maps` the space of each
mapping. `records` and `refunds` list what was recorded and returned. A space's id is never used
again. Left out are the pages, and the budget of the client that `burrow_share_into` charges.

## Main results

* `burrow_settlement`: one free, when both counts are zero, and every charge is returned once.
* `refund_before_last_detach`: the charge of a shared region can be returned too early.
-/

namespace Thylacine

open List

/-- `struct Burrow`, as far as references and charges go. -/
structure BurrowLife where
  /-- Is `magic` still `VMO_MAGIC`? -/
  magic : Bool
  /-- Are the pages, the kobj, the Spoor or the pagemap still there? -/
  backing : Bool
  handleCount : ℕ
  mappingCount : ℕ
  chargeAsId : ℕ
  chargePages : ℕ
  sharedOut : Bool
  /-- Drops that saw both counts at zero and whose free has not run. -/
  doomed : ℕ
  /-- Frees that have run. -/
  freed : ℕ
  handles : List (Option ℕ)
  maps : List ℕ
  records : List (ℕ × ℕ)
  refunds : List (ℕ × ℕ)
  /-- The address spaces that have gone. -/
  gone : Finset ℕ
  extinct : Bool

namespace BurrowLife

/-- A new Burrow, with its construction handle. -/
def mint (who : Option ℕ) : BurrowLife where
  magic := true
  backing := true
  handleCount := 1
  mappingCount := 0
  chargeAsId := 0
  chargePages := 0
  sharedOut := false
  doomed := 0
  freed := 0
  handles := [who]
  maps := []
  records := []
  refunds := []
  gone := ∅
  extinct := false

variable (s : BurrowLife)

def die : BurrowLife := { s with extinct := true }

/-- `burrow_ref`. -/
def burrowRef (who : Option ℕ) : BurrowLife :=
  if s.magic = false then s.die
  else if s.handleCount = 0 ∧ s.mappingCount = 0 then s.die
  else { s with handleCount := s.handleCount + 1, handles := who :: s.handles }

/-- `burrow_acquire_mapping`. -/
def burrowAcquireMapping (a : ℕ) : BurrowLife :=
  if s.magic = false then s.die
  else if s.handleCount = 0 ∧ s.mappingCount = 0 then s.die
  else if s.backing = false then s.die
  else { s with mappingCount := s.mappingCount + 1, maps := a :: s.maps }

/-- `burrow_charge_record`. -/
def burrowChargeRecord (a pages : ℕ) : BurrowLife :=
  if pages = 0 then s
  else if s.magic = false then s.die
  else { s with chargeAsId := a, chargePages := pages, records := s.records ++ [(a, pages)] }

/-- `burrow_charge_claim_locked` reads and clears the record. -/
def burrowChargeClaimLocked (payer : Option ℕ) : BurrowLife :=
  match payer with
  | none => s
  | some a =>
    if s.chargePages ≠ 0 ∧ s.chargeAsId = a then
      { s with
        chargeAsId := 0
        chargePages := 0
        refunds := s.refunds ++ [(a, s.chargePages)] }
    else s

/-- The end of a drop: the claim if it qualifies, the free if it was last. -/
def settle (should qualifies : Bool) (payer : Option ℕ) : BurrowLife :=
  let s := if qualifies then s.burrowChargeClaimLocked payer else s
  { s with doomed := if should then s.doomed + 1 else s.doomed }

/-- Are both counts at zero? -/
def unheld : Bool := decide (s.handleCount = 0 ∧ s.mappingCount = 0)

/-- A handle reference less. -/
def lessHandle (who : Option ℕ) : BurrowLife :=
  { s with handleCount := s.handleCount - 1, handles := s.handles.erase who }

/-- A mapping less. -/
def lessMapping (a : ℕ) : BurrowLife :=
  { s with mappingCount := s.mappingCount - 1, maps := s.maps.erase a }

/-- `burrow_unref_settled_in`, up to the unlock; `burrow_unref` without a payer. -/
def burrowUnrefSettledIn (who payer : Option ℕ) : BurrowLife :=
  if s.magic = false then s.die
  else if s.handleCount = 0 then s.die
  else
    let s := s.lessHandle who
    s.settle s.unheld s.unheld payer

/-- `burrow_release_mapping_settled_deferred`; `burrow_release_mapping` without a payer. -/
def burrowReleaseMappingSettledDeferred (a : ℕ) (payer : Option ℕ) : BurrowLife :=
  if s.magic = false then s.die
  else if s.mappingCount = 0 then s.die
  else
    let s := s.lessMapping a
    s.settle s.unheld (s.unheld || s.sharedOut) payer

/-- `burrow_free_internal`. -/
def burrowFreeInternal : BurrowLife :=
  if s.magic = false then s.die
  else if s.handleCount ≠ 0 then s.die
  else if s.mappingCount ≠ 0 then s.die
  else if s.backing = false then s.die
  else { s with backing := false, magic := false, doomed := s.doomed - 1, freed := s.freed + 1 }

/-- A hold of the lock, a free, or an event of a holder's life. -/
inductive Op where
  | ref (who : Option ℕ)
  | unref (who payer : Option ℕ)
  | acquire (a : ℕ)
  | release (a : ℕ) (payer : Option ℕ)
  | record (a pages : ℕ)
  /-- The last hold of `burrow_share_into`; the mapping in the client is an `acquire`. -/
  | share (a : ℕ)
  /-- A pin changes hands, as at `weft_share_claim`. -/
  | pass (who who' : Option ℕ)
  | free
  /-- An address space goes. -/
  | depart (a : ℕ)

def step : Op → BurrowLife
  | .ref who => s.burrowRef who
  | .unref who payer => s.burrowUnrefSettledIn who payer
  | .acquire a => s.burrowAcquireMapping a
  | .release a payer => s.burrowReleaseMappingSettledDeferred a payer
  | .record a pages => s.burrowChargeRecord a pages
  | .share _ => { s with sharedOut := true }
  | .pass who who' => { s with handles := who' :: s.handles.erase who }
  | .free => s.burrowFreeInternal
  | .depart a => { s with gone := insert a s.gone }

/-- The references that are held for a space. -/
def refsOf (a : ℕ) : ℕ := s.maps.count a + s.handles.count (some a)

/-- What the callers promise: a drop is of a reference taken before; who takes another keeps the
Burrow alive; a region is charged once, to a space that holds it; a mapping is dropped in the name
of its own space or of none, and a payer is a space that is there. -/
def Allowed : Op → Prop
  | .ref _ | .acquire _ => s.handles ≠ [] ∨ s.maps ≠ []
  | .unref who payer => who ∈ s.handles ∧ ∀ a, payer = some a → a ∉ s.gone
  | .release a payer => a ∈ s.maps ∧ (payer = none ∨ payer = some a ∧ a ∉ s.gone)
  | .record a _ => 0 < s.refsOf a ∧ s.chargePages = 0 ∧ a ∉ s.gone
  | .share a => a ∈ s.maps
  | .pass who _ => who ∈ s.handles
  | .free => 0 < s.doomed
  | .depart _ => True

/-- The states of all interleavings of steps that satisfy `ok`. -/
inductive Reachable (ok : BurrowLife → Op → Prop) : BurrowLife → Prop
  | mint (who : Option ℕ) : Reachable ok (mint who)
  | step {s : BurrowLife} (h : Reachable ok s) (op : Op) (hop : s.Allowed op) (hok : ok s op) :
      Reachable ok (s.step op)

variable {s : BurrowLife}

/-! ### Counts, frees and the ledger -/

/-- The record that has not been claimed. -/
def outstanding (s : BurrowLife) : List (ℕ × ℕ) :=
  if s.chargePages = 0 then [] else [(s.chargeAsId, s.chargePages)]

/-- The counts count the holders; a free is due, or has run, exactly when there are none; the record
is what was returned and what is held. -/
structure Inv (s : BurrowLife) : Prop where
  handles : s.handleCount = s.handles.length
  maps : s.mappingCount = s.maps.length
  ends : s.doomed + s.freed = s.unheld.toNat
  magic : s.magic = decide (s.freed = 0)
  backing : s.backing = s.magic
  ledger : s.refunds ++ s.outstanding = s.records
  live : s.extinct = false

/-- A Burrow that someone **holds** is neither freed nor about to be. -/
theorem Inv.held (h : Inv s) (hheld : s.handles ≠ [] ∨ s.maps ≠ []) :
    s.unheld = false ∧ s.doomed = 0 ∧ s.freed = 0 ∧ s.magic = true := by
  have hu : s.unheld = false := by
    rw [← Bool.not_eq_true, unheld, decide_eq_true_iff, h.handles, h.maps, length_eq_zero_iff,
      length_eq_zero_iff]
    exact fun hno => hheld.elim (· hno.1) (· hno.2)
  have hends := h.ends
  rw [hu, Bool.toNat_false] at hends
  refine ⟨hu, by omega, by omega, ?_⟩
  rw [h.magic]
  exact decide_eq_true (by omega)

theorem claim_ledger (s : BurrowLife) (payer : Option ℕ) :
    (s.burrowChargeClaimLocked payer).refunds ++ (s.burrowChargeClaimLocked payer).outstanding =
      s.refunds ++ s.outstanding := by
  unfold burrowChargeClaimLocked
  split
  · rfl
  · split
    · rename_i a hclaim
      simp [outstanding, hclaim.1, hclaim.2]
    · rfl

/-- A claim touches the record and nothing else. -/
theorem claim_eq (s : BurrowLife) (payer : Option ℕ) : ∃ a n r, s.burrowChargeClaimLocked payer =
      { s with chargeAsId := a, chargePages := n, refunds := r } := by
  unfold burrowChargeClaimLocked
  repeat' split
  all_goals exact ⟨_, _, _, rfl⟩

variable {op : Op} {t : BurrowLife}

/-- A **drop** by a holder: `t` is the Burrow after it. -/
theorem Inv.settle (hdoomed : t.doomed = 0) (hfreed : t.freed = 0)
    (hhandles : t.handleCount = t.handles.length) (hmaps : t.mappingCount = t.maps.length)
    (hmagic : t.magic = true) (hbacking : t.backing = true)
    (hledger : t.refunds ++ t.outstanding = t.records) (hlive : t.extinct = false)
    (qualifies : Bool) (payer : Option ℕ) : Inv (t.settle t.unheld qualifies payer) := by
  have hclaim := claim_ledger t payer
  obtain ⟨a, n, r, heq⟩ := claim_eq t payer
  rw [hledger] at hclaim
  have hends : (if t.unheld = true then t.doomed + 1 else t.doomed) + t.freed = t.unheld.toNat := by
    rw [hdoomed, hfreed]
    cases t.unheld <;> rfl
  have hfree : t.magic = decide (t.freed = 0) := by rw [hmagic, hfreed]; rfl
  cases qualifies with
  | false => exact ⟨hhandles, hmaps, hends, hfree, hbacking.trans hmagic.symm, hledger, hlive⟩
  | true =>
    unfold BurrowLife.settle
    rw [heq]
    rw [heq] at hclaim
    exact ⟨hhandles, hmaps, hends, hfree, hbacking.trans hmagic.symm, hclaim, hlive⟩

theorem Inv.not_unheld (h : Inv s) (hheld : s.handles ≠ [] ∨ s.maps ≠ []) :
    ¬(s.handleCount = 0 ∧ s.mappingCount = 0) :=
  of_decide_eq_false (h.held hheld).1

theorem held_of_refsOf {a : ℕ} (ha : 0 < s.refsOf a) : s.handles ≠ [] ∨ s.maps ≠ [] := by
  rw [← not_and_or]
  rintro ⟨hh, hm⟩
  simp [refsOf, hh, hm] at ha

/-- A free that is due has not run. -/
theorem Inv.due (h : Inv s) (hdoomed : 0 < s.doomed) :
    s.unheld = true ∧ s.freed = 0 ∧ s.magic = true := by
  have hends := h.ends
  have hle : s.unheld.toNat ≤ 1 := Bool.toNat_le _
  have hfreed : s.freed = 0 := by omega
  refine ⟨?_, hfreed, h.magic.trans (decide_eq_true hfreed)⟩
  cases hu : s.unheld with
  | true => rfl
  | false =>
    rw [hu, Bool.toNat_false] at hends
    omega

/-- A step, none of whose checks fails. -/
def passed (s : BurrowLife) : Op → BurrowLife
  | .ref who => { s with handleCount := s.handleCount + 1, handles := who :: s.handles }
  | .unref who payer =>
    (s.lessHandle who).settle (s.lessHandle who).unheld (s.lessHandle who).unheld payer
  | .acquire a => { s with mappingCount := s.mappingCount + 1, maps := a :: s.maps }
  | .release a payer => (s.lessMapping a).settle (s.lessMapping a).unheld
      ((s.lessMapping a).unheld || s.sharedOut) payer
  | .record a pages => if pages = 0 then s else
      { s with chargeAsId := a, chargePages := pages, records := s.records ++ [(a, pages)] }
  | .free => { s with backing := false, magic := false, doomed := s.doomed - 1, freed := s.freed + 1 }
  | op => s.step op

/-- **No check** fails. -/
theorem Inv.step_eq (h : Inv s) (hop : s.Allowed op) : s.step op = s.passed op := by
  cases op with
  | ref =>
    obtain ⟨-, -, -, hmagic⟩ := h.held hop
    rw [step, burrowRef, if_neg (by simp [hmagic]), if_neg (h.not_unheld hop)]
    rfl
  | unref =>
    have hne := ne_nil_of_mem hop.1
    obtain ⟨-, -, -, hmagic⟩ := h.held (.inl hne)
    rw [step, burrowUnrefSettledIn, if_neg (by simp [hmagic]),
      if_neg (by rwa [h.handles, length_eq_zero_iff])]
    rfl
  | acquire =>
    obtain ⟨-, -, -, hmagic⟩ := h.held hop
    rw [step, burrowAcquireMapping, if_neg (by simp [hmagic]),
      if_neg (h.not_unheld hop), if_neg (by simp [h.backing, hmagic])]
    rfl
  | release =>
    have hne := ne_nil_of_mem hop.1
    obtain ⟨-, -, -, hmagic⟩ := h.held (.inr hne)
    rw [step, burrowReleaseMappingSettledDeferred, if_neg (by simp [hmagic]),
      if_neg (by rwa [h.maps, length_eq_zero_iff])]
    rfl
  | record =>
    obtain ⟨-, -, -, hmagic⟩ := h.held (held_of_refsOf hop.1)
    rw [step, burrowChargeRecord, if_neg (c := s.magic = false) (by simp [hmagic])]
    rfl
  | free =>
    obtain ⟨hu, -, hmagic⟩ := h.due hop
    obtain ⟨hhandle, hmapping⟩ := of_decide_eq_true hu
    rw [step, burrowFreeInternal, if_neg (by simp [hmagic]),
      if_neg (not_not.mpr hhandle), if_neg (not_not.mpr hmapping),
      if_neg (by simp [h.backing, hmagic])]
    rfl
  | share | pass | depart => rfl

theorem Inv.handleCount_less (h : Inv s) {who : Option ℕ} (hwho : who ∈ s.handles) :
    (s.lessHandle who).handleCount = (s.lessHandle who).handles.length := by
  rw [lessHandle, length_erase_of_mem hwho, h.handles]

theorem Inv.mappingCount_less (h : Inv s) {a : ℕ} (ha : a ∈ s.maps) :
    (s.lessMapping a).mappingCount = (s.lessMapping a).maps.length := by
  rw [lessMapping, length_erase_of_mem ha, h.maps]

/-- **Every step** of a holder keeps the invariant. -/
theorem Inv.step (h : Inv s) (hop : s.Allowed op) : Inv (s.step op) := by
  rw [h.step_eq hop]
  cases op with
  | ref =>
    obtain ⟨-, hdoomed, hfreed, -⟩ := h.held hop
    refine ⟨by rw [passed, h.handles]; rfl, h.maps, ?_, h.magic, h.backing, h.ledger, h.live⟩
    simp [passed, unheld, hdoomed, hfreed]
  | unref who =>
    obtain ⟨-, hdoomed, hfreed, hmagic⟩ := h.held (.inl (ne_nil_of_mem hop.1))
    exact settle (t := s.lessHandle who) hdoomed hfreed (h.handleCount_less hop.1) h.maps hmagic
      (h.backing.trans hmagic) h.ledger h.live _ _
  | acquire =>
    obtain ⟨-, hdoomed, hfreed, -⟩ := h.held hop
    refine ⟨h.handles, by rw [passed, h.maps]; rfl, ?_, h.magic, h.backing, h.ledger, h.live⟩
    simp [passed, unheld, hdoomed, hfreed]
  | release a =>
    obtain ⟨-, hdoomed, hfreed, hmagic⟩ := h.held (.inr (ne_nil_of_mem hop.1))
    exact settle (t := s.lessMapping a) hdoomed hfreed h.handles (h.mappingCount_less hop.1) hmagic
      (h.backing.trans hmagic) h.ledger h.live _ _
  | record =>
    rw [passed]
    split
    · exact h
    · rename_i hpages
      refine ⟨h.handles, h.maps, h.ends, h.magic, h.backing, ?_, h.live⟩
      have hledger := h.ledger
      rw [outstanding, if_pos hop.2.1, append_nil] at hledger
      rw [outstanding, if_neg hpages, hledger]
  | pass who who' =>
    have hpos : 0 < s.handles.length := length_pos_of_mem hop
    refine ⟨?_, h.maps, h.ends, h.magic, h.backing, h.ledger, h.live⟩
    show s.handleCount = (who' :: s.handles.erase who).length
    rw [length_cons, length_erase_of_mem hop, h.handles]
    omega
  | free =>
    have hends := h.ends
    have hpos : 0 < s.doomed := hop
    refine ⟨h.handles, h.maps, ?_, by simp [passed], rfl, h.ledger, h.live⟩
    show s.doomed - 1 + (s.freed + 1) = s.unheld.toNat
    omega
  | share | depart => exact ⟨h.handles, h.maps, h.ends, h.magic, h.backing, h.ledger, h.live⟩

theorem Reachable.inv {ok : BurrowLife → Op → Prop} (hs : Reachable ok s) : Inv s := by
  induction hs with
  | mint who => exact ⟨rfl, rfl, rfl, rfl, rfl, rfl, rfl⟩
  | step _ op hop _ ih => exact ih.step hop

/-! ### When the charge is returned -/

/-- A record is held, and its payer is still there. -/
def Owed (s : BurrowLife) : Prop := s.chargePages ≠ 0 ∧ s.chargeAsId ∉ s.gone

/-- Steps that settle **in time**: a payer's last reference is dropped in its name, and frees the
Burrow or is a mapping of one that is shared out; it is not passed on. While the payer has another
reference, it drops no mapping of a shared-out Burrow in its name. -/
def Careful (s : BurrowLife) : Op → Prop
  | .unref who payer => s.Owed → who = some s.chargeAsId → s.refsOf s.chargeAsId = 1 →
      payer = some s.chargeAsId ∧ s.handleCount = 1 ∧ s.mappingCount = 0
  | .release a payer => s.Owed → a = s.chargeAsId →
      if s.refsOf a = 1 then
        payer = some a ∧ (s.sharedOut = true ∨ s.handleCount = 0 ∧ s.mappingCount = 1)
      else ¬(payer = some a ∧ s.sharedOut = true)
  | .pass who who' => s.Owed → who = some s.chargeAsId → s.refsOf s.chargeAsId = 1 → who' = who
  | _ => True

/-- The payer of a record that is held still has a reference. -/
def Backed (s : BurrowLife) : Prop := s.Owed → 0 < s.refsOf s.chargeAsId

theorem count_erase_add {α : Type} [BEq α] [LawfulBEq α] [DecidableEq α] {l : List α} {x : α}
    (hx : x ∈ l) (a : α) :
    (l.erase x).count a + (if x = a then 1 else 0) = l.count a := by
  rw [(perm_cons_erase hx).count_eq, count_cons]
  simp

theorem refsOf_lessHandle {who : Option ℕ} (hwho : who ∈ s.handles) (a : ℕ) :
    (s.lessHandle who).refsOf a + (if who = some a then 1 else 0) = s.refsOf a := by
  rw [refsOf, refsOf, ← count_erase_add hwho]
  exact Nat.add_assoc ..

theorem refsOf_lessMapping {b : ℕ} (hb : b ∈ s.maps) (a : ℕ) :
    (s.lessMapping b).refsOf a + (if b = a then 1 else 0) = s.refsOf a := by
  rw [refsOf, refsOf, ← count_erase_add hb]
  exact Nat.add_right_comm ..

/-- Only a qualifying drop by the payer claims the record. -/
theorem settle_cases (t : BurrowLife) (should qualifies : Bool) (payer : Option ℕ) :
    (t.settle should qualifies payer).refsOf = t.refsOf ∧
      (t.settle should qualifies payer).gone = t.gone ∧
      ((qualifies = true ∧ payer = some t.chargeAsId ∧ t.chargePages ≠ 0 ∧
      (t.settle should qualifies payer).chargePages = 0 ∧
      (t.settle should qualifies payer).refunds =
      t.refunds ++ [(t.chargeAsId, t.chargePages)]) ∨
      (¬(qualifies = true ∧ payer = some t.chargeAsId ∧ t.chargePages ≠ 0) ∧
      (t.settle should qualifies payer).chargeAsId = t.chargeAsId ∧
      (t.settle should qualifies payer).chargePages = t.chargePages ∧
      (t.settle should qualifies payer).refunds = t.refunds)) := by
  cases qualifies with
  | false => exact ⟨rfl, rfl, .inr ⟨nofun, rfl, rfl, rfl⟩⟩
  | true =>
    unfold settle burrowChargeClaimLocked
    rw [if_pos rfl]
    split
    · exact ⟨rfl, rfl, .inr ⟨nofun, rfl, rfl, rfl⟩⟩
    · split
      · rename_i hclaim
        obtain ⟨hpages, rfl⟩ := hclaim
        exact ⟨rfl, rfl, .inl ⟨rfl, rfl, hpages, rfl, rfl⟩⟩
      · rename_i hno
        refine ⟨rfl, rfl, .inr ⟨?_, rfl, rfl, rfl⟩⟩
        rintro ⟨-, hpayer, hpages⟩
        exact hno ⟨hpages, (Option.some_inj.mp hpayer).symm⟩

/-- A drop leaves the payer a reference, or claimed the record. -/
theorem Backed.settle {should qualifies : Bool} {payer : Option ℕ}
    (h : t.Owed → t.refsOf t.chargeAsId = 0 → qualifies = true ∧ payer = some t.chargeAsId) :
    Backed (t.settle should qualifies payer) := by
  obtain ⟨hrefs, hgone, hcases⟩ := settle_cases t should qualifies payer
  rintro ⟨hpages, hthere⟩
  rcases hcases with ⟨-, -, -, hzero, -⟩ | ⟨hno, has, hsame, -⟩
  · exact absurd hzero hpages
  · rw [hsame] at hpages
    rw [has, hgone] at hthere
    rw [hrefs, has]
    by_contra hlast
    obtain ⟨hq, hp⟩ := h ⟨hpages, hthere⟩ (by omega)
    exact hno ⟨hq, hp, hpages⟩

/-- Steps that take no reference from the payer. -/
theorem Backed.mono (hb : Backed s) (has : t.chargeAsId = s.chargeAsId)
    (hpages : t.chargePages = s.chargePages) (hgone : s.gone ⊆ t.gone)
    (hrefs : s.refsOf s.chargeAsId ≤ t.refsOf s.chargeAsId) : Backed t := by
  rintro ⟨howed, hthere⟩
  rw [has] at hthere ⊢
  rw [hpages] at howed
  exact lt_of_lt_of_le (hb ⟨howed, fun hno => hthere (hgone hno)⟩) hrefs

/-- The payer's last reference is the one that goes. -/
theorem last_ref {a : ℕ} {c : Prop} [Decidable c] (hpos : 0 < s.refsOf a)
    (hcount : t.refsOf a + (if c then 1 else 0) = s.refsOf a) (hzero : t.refsOf a = 0) :
    c ∧ s.refsOf a = 1 := by
  split at hcount
  · exact ⟨‹c›, by omega⟩
  · omega

theorem Backed.step (hi : Inv s) (hb : Backed s) (hop : s.Allowed op)
    (hok : s.Careful op) : Backed (s.step op) := by
  rw [hi.step_eq hop]
  cases op with
  | ref => exact hb.mono rfl rfl (Finset.Subset.refl _) (Nat.add_le_add_left count_le_count_cons _)
  | unref who =>
    refine settle fun howed hzero => ?_
    obtain ⟨hwho, hlast⟩ := last_ref (hb howed) (refsOf_lessHandle hop.1 s.chargeAsId) hzero
    obtain ⟨hpayer, hone, hnone⟩ := hok howed hwho hlast
    refine ⟨decide_eq_true ⟨?_, hnone⟩, hpayer⟩
    show s.handleCount - 1 = 0
    omega
  | acquire =>
    exact hb.mono rfl rfl (Finset.Subset.refl _) (Nat.add_le_add_right count_le_count_cons _)
  | release a =>
    refine settle fun howed hzero => ?_
    obtain ⟨ha, hlast⟩ := last_ref (hb howed) (refsOf_lessMapping hop.1 s.chargeAsId) hzero
    have hcareful := hok howed ha
    rw [if_pos (ha ▸ hlast)] at hcareful
    obtain ⟨hpayer, hqualifies⟩ := hcareful
    refine ⟨?_, ha ▸ hpayer⟩
    rcases hqualifies with hshared | ⟨hnone, hone⟩
    · rw [hshared, Bool.or_true]
    · rw [Bool.or_eq_true]
      refine .inl (decide_eq_true ⟨hnone, ?_⟩)
      show s.mappingCount - 1 = 0
      omega
  | record =>
    rw [passed]
    split
    · exact hb
    · exact fun _ => hop.1
  | pass who who' =>
    rintro howed
    have hcount := refsOf_lessHandle hop s.chargeAsId
    have hpos := hb howed
    have hpass : s.refsOf s.chargeAsId = 1 → who = some s.chargeAsId → who' = who :=
      fun hone hwho => hok howed hwho hone
    show 0 < s.maps.count s.chargeAsId + (who' :: s.handles.erase who).count (some s.chargeAsId)
    have hle : (s.lessHandle who).refsOf s.chargeAsId ≤ s.maps.count s.chargeAsId +
        (who' :: s.handles.erase who).count (some s.chargeAsId) :=
      Nat.add_le_add_left count_le_count_cons _
    by_cases hwho : who = some s.chargeAsId
    · rw [if_pos hwho] at hcount
      by_cases hone : s.refsOf s.chargeAsId = 1
      · rw [hpass hone hwho, hwho, count_cons_self]
        omega
      · omega
    · rw [if_neg hwho] at hcount
      omega
  | share | free => exact hb
  | depart a => exact hb.mono rfl rfl (Finset.subset_insert a s.gone) (le_rfl)

theorem Reachable.backed (hs : Reachable Careful s) : Backed s := by
  induction hs with
  | mint => exact fun howed => absurd rfl howed.1
  | step hs op hop hok ih => exact ih.step hs.inv hop hok

theorem refsOf_eq_zero_of_unheld (hhandles : t.handleCount = t.handles.length)
    (hmaps : t.mappingCount = t.maps.length) (hu : t.unheld = true) (a : ℕ) : t.refsOf a = 0 := by
  obtain ⟨hh, hm⟩ := of_decide_eq_true hu
  rw [hhandles, length_eq_zero_iff] at hh
  rw [hmaps, length_eq_zero_iff] at hm
  rw [refsOf, hh, hm]
  rfl

theorem append_singleton_ne {α : Type} {l : List α} {x : α} : l ≠ l ++ [x] := by
  intro h
  have hlen := congrArg length h
  rw [length_append, length_singleton] at hlen
  omega

/-- A charge returns **when the payer has no reference left**. -/
theorem Inv.refund (h : Inv s) (hop : s.Allowed op) (hok : s.Careful op) {a n : ℕ}
    (hrefund : (s.step op).refunds = s.refunds ++ [(a, n)]) : (s.step op).refsOf a = 0 := by
  rw [h.step_eq hop] at hrefund ⊢
  cases op with
  | unref who payer =>
    obtain ⟨hrefs, -, ⟨hu, -⟩ | ⟨-, -, -, hsame⟩⟩ := settle_cases (s.lessHandle who)
      (s.lessHandle who).unheld (s.lessHandle who).unheld payer
    · rw [passed, hrefs]
      exact refsOf_eq_zero_of_unheld (h.handleCount_less hop.1) h.maps hu a
    · exact absurd (hsame.symm.trans hrefund) append_singleton_ne
  | release b payer =>
    obtain ⟨hrefs, -, ⟨hqual, hpayer, hpages, -, hnew⟩ | ⟨-, -, -, hsame⟩⟩ := settle_cases
      (s.lessMapping b) (s.lessMapping b).unheld ((s.lessMapping b).unheld || s.sharedOut) payer
    · rw [passed, hrefs]
      rcases Bool.or_eq_true _ _ ▸ hqual with hu | hshared
      · exact refsOf_eq_zero_of_unheld (t := s.lessMapping b) h.handles (h.mappingCount_less hop.1) hu a
      · -- the payer detaches a shared-out region: by the condition with its last reference
        rw [passed, hnew] at hrefund
        have ha : s.chargeAsId = a := by
          have hlast := append_cancel_left hrefund
          exact congrArg Prod.fst (head_eq_of_cons_eq hlast)
        obtain ⟨hb, hgone⟩ : b = s.chargeAsId ∧ b ∉ s.gone := by
          rcases hop.2 with hnone | ⟨hsome, hgone⟩
          · rw [hnone] at hpayer
            cases hpayer
          · exact ⟨Option.some_inj.mp (hsome.symm.trans hpayer), hgone⟩
        have hcareful := hok ⟨hpages, hb ▸ hgone⟩ hb
        have hcount := refsOf_lessMapping hop.1 a
        rw [if_pos (hb.trans ha)] at hcount
        split at hcareful
        · rename_i hone
          rw [hb, ha] at hone
          omega
        · exact absurd ⟨hb ▸ hpayer, hshared⟩ hcareful
    · exact absurd (hsame.symm.trans hrefund) append_singleton_ne
  | record =>
    rw [passed] at hrefund
    split at hrefund
    all_goals exact absurd hrefund append_singleton_ne
  | ref | acquire | share | pass | free | depart => exact absurd hrefund append_singleton_ne

/-- Nobody may touch a Burrow that was freed. -/
theorem Inv.untouched (h : Inv s) (hfreed : s.freed = 1) (hop : s.Allowed op) :
    ∃ a, op = .depart a := by
  have hnone : ¬(s.handles ≠ [] ∨ s.maps ≠ []) := fun hheld => by
    have := (h.held hheld).2.2.1
    omega
  obtain ⟨hh, hm⟩ := not_or.mp hnone
  rw [not_not] at hh hm
  cases op with
  | ref _ | acquire _ => exact absurd hop hnone
  | unref => exact absurd hop.1 (by rw [hh]; exact not_mem_nil)
  | release => exact absurd hop.1 (by rw [hm]; exact not_mem_nil)
  | record => exact absurd hop.1 (by rw [refsOf, hh, hm]; exact lt_irrefl 0)
  | share a =>
    have ha : a ∈ s.maps := hop
    exact absurd ha (by rw [hm]; exact not_mem_nil)
  | pass who =>
    have hwho : who ∈ s.handles := hop
    exact absurd hwho (by rw [hh]; exact not_mem_nil)
  | free =>
    have hdoomed : 0 < s.doomed := hop
    have hends := h.ends
    have hle := Bool.toNat_le s.unheld
    omega
  | depart a => exact ⟨a, rfl⟩

/-- **The life of a Burrow.** Whatever the interleaving, no check fails; the free is due or has run
exactly when both counts are zero, and there is one; after it nobody may touch the Burrow; and the
charges recorded are, in order, those returned and the one still held. If the steps settle in time,
a charge is returned only when the payer has no reference left, and with both counts zero the record
is held only for a space that has gone. -/
theorem burrow_settlement (s : BurrowLife) :
    (Reachable (fun _ _ => True) s → s.extinct = false ∧ s.doomed + s.freed ≤ 1 ∧
        (s.doomed + s.freed = 1 ↔ s.handleCount = 0 ∧ s.mappingCount = 0) ∧
        (∀ op, s.freed = 1 → s.Allowed op → ∃ a, op = .depart a) ∧
        s.refunds ++ s.outstanding = s.records) ∧
      (Reachable Careful s → (∀ op a n, s.Allowed op → s.Careful op →
          (s.step op).refunds = s.refunds ++ [(a, n)] → (s.step op).refsOf a = 0) ∧
        (s.handleCount = 0 → s.mappingCount = 0 → ∀ r ∈ s.outstanding, r.1 ∈ s.gone)) := by
  refine ⟨fun hs => ?_, fun hs => ⟨fun op a n hop hok => hs.inv.refund hop hok, ?_⟩⟩
  · have hi := hs.inv
    have hle := Bool.toNat_le s.unheld
    refine ⟨hi.live, hi.ends ▸ hle, ?_, fun op hfreed => hi.untouched hfreed, hi.ledger⟩
    rw [hi.ends, Bool.toNat_eq_one]
    exact decide_eq_true_iff
  · intro hh hm r hr
    by_contra hthere
    have hi := hs.inv
    rw [outstanding] at hr
    split at hr
    · cases hr
    · rename_i hpages
      rw [mem_singleton.mp hr] at hthere
      have hpos := hs.backed ⟨hpages, hthere⟩
      have hzero := refsOf_eq_zero_of_unheld hi.handles hi.maps (decide_eq_true ⟨hh, hm⟩)
        s.chargeAsId
      omega

/-- The space `0` has paid for four pages that only its mapping keeps. -/
def charged : BurrowLife :=
  (((mint (some 0)).step (.acquire 0)).step (.record 0 4)).step (.unref (some 0) none)

theorem charged_reachable : Reachable Careful charged := by
  refine .step (.step (.step (.mint (some 0)) (.acquire 0) ?_ trivial) (.record 0 4) ?_ trivial)
    (.unref (some 0) none) ?_ ?_
  · exact .inl (cons_ne_nil _ _)
  · exact ⟨by decide, rfl, Finset.notMem_empty 0⟩
  · exact ⟨mem_singleton_self _, nofun⟩
  · exact fun _ _ hlast => absurd hlast (by decide)

theorem burrow_settlement_charged :
    (charged.step (.release 0 (some 0))).refunds = charged.refunds ++ [(0, 4)] ∧
      (charged.step (.release 0 (some 0))).refsOf 0 = 0 := by
  refine ⟨rfl, ((burrow_settlement charged).2 charged_reachable).1 (.release 0 (some 0)) 0 4
    ⟨mem_cons_self, .inr ⟨rfl, Finset.notMem_empty 0⟩⟩ ?_ rfl⟩
  exact fun _ _ => ⟨rfl, .inr ⟨rfl, rfl⟩⟩

/-- The space `0` has paid for four pages, shared them with `1` and cut them in two. -/
def cutShared : BurrowLife := ((charged.step (.acquire 1)).step (.share 1)).step (.acquire 0)

theorem cutShared_reachable : Reachable (fun _ _ => True) cutShared := by
  refine .step (.step (.step (.step (.step (.step (.mint (some 0)) (.acquire 0) ?_ trivial)
    (.record 0 4) ?_ trivial) (.unref (some 0) none) ?_ trivial) (.acquire 1) ?_ trivial)
    (.share 1) ?_ trivial) (.acquire 0) ?_ trivial
  · exact .inl (cons_ne_nil _ _)
  · exact ⟨by decide, rfl, Finset.notMem_empty 0⟩
  · exact ⟨mem_singleton_self _, nofun⟩
  · exact .inr (cons_ne_nil _ _)
  · exact mem_cons_self
  · exact .inr (cons_ne_nil _ _)

/-- **The refund comes early**: when the payer detaches one of the two pieces, it gets the whole
charge back and still has the other mapped. -/
theorem refund_before_last_detach :
    Reachable (fun _ _ => True) cutShared ∧ cutShared.Allowed (.release 0 (some 0)) ∧
      (cutShared.step (.release 0 (some 0))).refunds = cutShared.refunds ++ [(0, 4)] ∧
      0 < (cutShared.step (.release 0 (some 0))).refsOf 0 :=
  ⟨cutShared_reachable, ⟨mem_cons_self, .inr ⟨rfl, Finset.notMem_empty 0⟩⟩, rfl, by decide⟩

end BurrowLife

end Thylacine
