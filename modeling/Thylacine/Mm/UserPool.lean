import Thylacine.Mm.PhysSystem

/-!
# The User Page Pool

`pool_charge`, `pool_uncharge`, `alloc_user_pages` and `free_pages` of `mm/phys.c`, run by any
number of threads at once. The counter `g_user_pool_charged` is shared without a lock: every
load and every compare-exchange of it is one atomic step, and so is each call into a magazine
or the buddy. A weak compare-exchange may fail with the expected value in place.

A call is a program counter with the values its thread carries. `Call.inFlight` are the pages
of a charge between the step that lands it and the step that tags the block, or, on the way
back, until the step that returns it. `PoolState.Inv.move` reduces each step to what it does to one
call.

## Main results

* `user_pool_accounting`: the counter is the sum of the tagged live blocks and the charges in
  flight.
-/

namespace Thylacine

open Dyadic IntrusiveList Multiset

/-! ### The pool -/

/-- The checks of `pool_charge` on a loaded value, in 32 bits. -/
def chargeAdmits (pool cur npages : ℕ) (exempt : Bool) : Bool :=
  !(0xFFFFFFFF - cur < npages) && (exempt || !(pool < (cur + npages) % 2 ^ 32))

/-- Set `PG_USER` on the head of a block. -/
def Zone.setUser (z : Zone) (p : ℕ) : Zone :=
  z.setPage p { z.page p with flags := { (z.page p).flags with user := true } }

/-! ### Calls -/

/-- Where a thread is in `alloc_user_pages` or `free_pages`. -/
inductive CallPc
  /-- `pool_charge` is about to load the counter. -/
  | chargeLoad
  /-- `pool_charge` is about to check and exchange, with the value it has seen. -/
  | chargeTry (cur : ℕ)
  /-- The charge was refused, the reclaim is asked. -/
  | refused
  /-- The first half of `alloc_pages`. -/
  | magAlloc
  /-- The second half of `alloc_pages`. -/
  | buddyAlloc
  /-- The block is there and about to be tagged. -/
  | tag (p : ℕ)
  /-- `pool_uncharge` is about to load the counter; `p` is the block being freed, `none` for
  the charge of a failed allocation. -/
  | unchargeLoad (p : Option ℕ)
  /-- `pool_uncharge` is about to exchange. -/
  | unchargeTry (p : Option ℕ) (cur : ℕ)
  /-- `free_pages` is about to offer the block to the magazine. -/
  | magFree (p : ℕ)
  /-- `free_pages` is about to give the block to the buddy. -/
  | buddyFree (p : ℕ)
  /-- `alloc_user_pages` has returned. -/
  | returned (r : Option ℕ)
  /-- `free_pages` has returned. -/
  | freed
  deriving DecidableEq, Repr

/-- A call; `net` is what it has added to the counter. -/
structure Call where
  order : ℕ
  exempt : Bool
  pc : CallPc
  net : ℤ
  deriving DecidableEq, Repr

/-- The pages of a call's charge neither on a tagged block nor returned. -/
def Call.inFlight (c : Call) : ℕ :=
  match c.pc with
  | .magAlloc | .buddyAlloc | .tag _ | .unchargeLoad _ | .unchargeTry _ _ => 2 ^ c.order
  | _ => 0

/-- The block a call holds. -/
def Call.block (c : Call) : Multiset Block :=
  match c.pc with
  | .tag p | .unchargeLoad (some p) | .unchargeTry (some p) _ | .magFree p | .buddyFree p =>
    {⟨p, c.order⟩}
  | _ => 0

/-- The allocator, `g_user_pool_pages`, the calls and the callers' blocks. -/
structure PoolState where
  phys : Phys
  poolPages : ℕ
  calls : Multiset Call
  live : Multiset Block

namespace PoolState

/-- `g_user_pool_charged`. -/
def charged (s : PoolState) : ℕ := s.phys.userPoolCharged

/-- Call `c` goes to `pc`, over what its step leaves. -/
def move (s : PoolState) (c : Call) (rest : Multiset Call) (pc : CallPc) (phys : Phys)
    (live : Multiset Block) : PoolState :=
  { s with
    phys := phys
    calls := { c with
      pc := pc
      net := c.net + ((phys.userPoolCharged : ℤ) - s.phys.userPoolCharged) } ::ₘ rest
    live := live }

end PoolState

/-- What a step does to the counter. -/
inductive PoolEvent
  | charge (order : ℕ) (exempt : Bool)
  | uncharge (order : ℕ)
  | silent
  deriving DecidableEq, Repr

/-- **One step** of one thread. -/
inductive PoolStep : PoolState → PoolEvent → PoolState → Prop
  /-- `alloc_user_pages` is called; an order that no block has is refused at once. -/
  | start {s : PoolState} (order : ℕ) (exempt : Bool) :
      PoolStep s .silent { s with
        calls := ⟨order, exempt,
          if order > maxOrder then .returned none else .chargeLoad, 0⟩ ::ₘ s.calls }
  | chargeLoad {s : PoolState} {c : Call} {rest : Multiset Call} (hs : s.calls = c ::ₘ rest)
      (hpc : c.pc = .chargeLoad) :
      PoolStep s .silent (s.move c rest (.chargeTry s.charged) s.phys s.live)
  | chargeRefused {s : PoolState} {c : Call} {rest : Multiset Call} {cur : ℕ}
      (hs : s.calls = c ::ₘ rest) (hpc : c.pc = .chargeTry cur)
      (hno : chargeAdmits s.poolPages cur (2 ^ c.order) c.exempt = false) :
      PoolStep s .silent (s.move c rest .refused s.phys s.live)
  /-- The exchange finds the value the thread has seen. -/
  | chargeLands {s : PoolState} {c : Call} {rest : Multiset Call} {cur : ℕ}
      (hs : s.calls = c ::ₘ rest) (hpc : c.pc = .chargeTry cur)
      (hyes : chargeAdmits s.poolPages cur (2 ^ c.order) c.exempt = true)
      (hcur : s.charged = cur) :
      PoolStep s (.charge c.order c.exempt) (s.move c rest .magAlloc
        { s.phys with userPoolCharged := (cur + 2 ^ c.order) % 2 ^ 32 } s.live)
  /-- The exchange fails and returns the value in place. -/
  | chargeRetry {s : PoolState} {c : Call} {rest : Multiset Call} {cur : ℕ}
      (hs : s.calls = c ::ₘ rest) (hpc : c.pc = .chargeTry cur)
      (hyes : chargeAdmits s.poolPages cur (2 ^ c.order) c.exempt = true) :
      PoolStep s .silent (s.move c rest (.chargeTry s.charged) s.phys s.live)
  /-- There is no reclaim or it has nothing to give. -/
  | giveUp {s : PoolState} {c : Call} {rest : Multiset Call} (hs : s.calls = c ::ₘ rest)
      (hpc : c.pc = .refused) :
      PoolStep s .silent (s.move c rest (.returned none) s.phys s.live)
  /-- The reclaim gave pages back, by calls of its own. -/
  | askAgain {s : PoolState} {c : Call} {rest : Multiset Call} (hs : s.calls = c ::ₘ rest)
      (hpc : c.pc = .refused) :
      PoolStep s .silent (s.move c rest .chargeLoad s.phys s.live)
  | magHit {s : PoolState} {c : Call} {rest : Multiset Call} {cpu p : ℕ} {phys : Phys}
      (hs : s.calls = c ::ₘ rest) (hpc : c.pc = .magAlloc)
      (heq : magAlloc s.phys cpu c.order = some (phys, some p)) :
      PoolStep s .silent (s.move c rest (.tag p) phys s.live)
  | magMiss {s : PoolState} {c : Call} {rest : Multiset Call} {cpu : ℕ} {phys : Phys}
      (hs : s.calls = c ::ₘ rest) (hpc : c.pc = .magAlloc)
      (heq : magAlloc s.phys cpu c.order = some (phys, none)) :
      PoolStep s .silent (s.move c rest .buddyAlloc phys s.live)
  | buddyHit {s : PoolState} {c : Call} {rest : Multiset Call} {p : ℕ} {z : Zone}
      (hs : s.calls = c ::ₘ rest) (hpc : c.pc = .buddyAlloc)
      (heq : buddyAlloc s.phys.zone c.order = some (z, some p)) :
      PoolStep s .silent (s.move c rest (.tag p) { s.phys with zone := z } s.live)
  | buddyNull {s : PoolState} {c : Call} {rest : Multiset Call} {z : Zone}
      (hs : s.calls = c ::ₘ rest) (hpc : c.pc = .buddyAlloc)
      (heq : buddyAlloc s.phys.zone c.order = some (z, none)) :
      PoolStep s .silent (s.move c rest (.unchargeLoad none) { s.phys with zone := z } s.live)
  /-- The block is tagged and returned. -/
  | tag {s : PoolState} {c : Call} {rest : Multiset Call} {p : ℕ} (hs : s.calls = c ::ₘ rest)
      (hpc : c.pc = .tag p) :
      PoolStep s .silent (s.move c rest (.returned (some p))
        { s.phys with zone := s.phys.zone.setUser p } (⟨p, c.order⟩ ::ₘ s.live))
  | unchargeLoad {s : PoolState} {c : Call} {rest : Multiset Call} {p : Option ℕ}
      (hs : s.calls = c ::ₘ rest) (hpc : c.pc = .unchargeLoad p) :
      PoolStep s .silent (s.move c rest (.unchargeTry p s.charged) s.phys s.live)
  | unchargeLands {s : PoolState} {c : Call} {rest : Multiset Call} {p : Option ℕ} {cur : ℕ}
      (hs : s.calls = c ::ₘ rest) (hpc : c.pc = .unchargeTry p cur) (hcur : s.charged = cur) :
      PoolStep s (.uncharge c.order) (s.move c rest (match p with
          | none => .returned none
          | some p => .magFree p)
        { s.phys with userPoolCharged := poolUncharge cur (2 ^ c.order) } s.live)
  | unchargeRetry {s : PoolState} {c : Call} {rest : Multiset Call} {p : Option ℕ} {cur : ℕ}
      (hs : s.calls = c ::ₘ rest) (hpc : c.pc = .unchargeTry p cur) :
      PoolStep s .silent (s.move c rest (.unchargeTry p s.charged) s.phys s.live)
  /-- `free_pages` is called on a user block, which loses its tag. -/
  | freeUser {s : PoolState} {p order : ℕ} (hb : ⟨p, order⟩ ∈ s.live)
      (huser : (s.phys.zone.page p).flags.user = true) :
      PoolStep s .silent { s with
        phys := { s.phys with zone := s.phys.zone.clearUser p }
        calls := ⟨order, false, .unchargeLoad (some p), 0⟩ ::ₘ s.calls
        live := s.live.erase ⟨p, order⟩ }
  /-- `free_pages` is called on a block of the kernel. -/
  | freeKernel {s : PoolState} {p order : ℕ} (hb : ⟨p, order⟩ ∈ s.live)
      (huser : (s.phys.zone.page p).flags.user = false) :
      PoolStep s .silent { s with
        calls := ⟨order, false, .magFree p, 0⟩ ::ₘ s.calls
        live := s.live.erase ⟨p, order⟩ }
  | magTakes {s : PoolState} {c : Call} {rest : Multiset Call} {cpu p : ℕ} {phys : Phys}
      (hs : s.calls = c ::ₘ rest) (hpc : c.pc = .magFree p)
      (heq : magFree s.phys cpu p c.order = some (phys, true)) :
      PoolStep s .silent (s.move c rest .freed phys s.live)
  | magRefuses {s : PoolState} {c : Call} {rest : Multiset Call} {cpu p : ℕ} {phys : Phys}
      (hs : s.calls = c ::ₘ rest) (hpc : c.pc = .magFree p)
      (heq : magFree s.phys cpu p c.order = some (phys, false)) :
      PoolStep s .silent (s.move c rest (.buddyFree p) phys s.live)
  | buddyTakes {s : PoolState} {c : Call} {rest : Multiset Call} {p : ℕ} {z : Zone}
      (hs : s.calls = c ::ₘ rest) (hpc : c.pc = .buddyFree p)
      (heq : buddyFree s.phys.zone p c.order = some z) :
      PoolStep s .silent (s.move c rest .freed { s.phys with zone := z } s.live)
  /-- The kernel takes pages of its own with `alloc_pages`. -/
  | kernelAlloc {s : PoolState} {cpu order p : ℕ} {phys : Phys}
      (heq : allocPages s.phys cpu order = some (phys, some p)) :
      PoolStep s .silent { s with phys := phys, live := ⟨p, order⟩ ::ₘ s.live }

/-! ### The property -/

/-- The pages of the tagged blocks among `live`. -/
def taggedPages (z : Zone) (live : Multiset Block) : ℕ :=
  ((live.filter fun b => (z.page b.base).flags.user = true).map Block.size).sum

/-- The pages of the charges in flight. -/
def inFlightPages (calls : Multiset Call) : ℕ := (calls.map Call.inFlight).sum

/-- The property of a state. -/
structure PoolState.Ok (s : PoolState) : Prop where
  /-- The counter is exact. -/
  counter : s.charged = taggedPages s.phys.zone s.live + inFlightPages s.calls
  /-- The counter is a 32-bit word: the sum has not wrapped. -/
  fits : s.charged < 2 ^ 32
  /-- No `pool_uncharge` computes the clamped value, whatever it has loaded. -/
  noClamp : ∀ c ∈ s.calls, ∀ p cur, c.pc = .unchargeTry p cur → 2 ^ c.order ≤ cur
  /-- An `alloc_user_pages` that returned `NULL` has left nothing on the counter. -/
  null : ∀ c ∈ s.calls, c.pc = .returned none → c.net = 0

/-- A step's property: charges add and uncharges subtract their pages; one not exempt lands within
the pool. -/
def PoolEvent.Ok (s : PoolState) (s' : PoolState) : PoolEvent → Prop
  | .charge order exempt => s'.charged = s.charged + 2 ^ order ∧
      (exempt = false → s'.charged ≤ s.poolPages)
  | .uncharge order => s'.charged + 2 ^ order = s.charged
  | .silent => s'.charged = s.charged

/-! ### Sums over blocks and calls -/

/-- The blocks the calls hold. -/
def heldBlocks (calls : Multiset Call) : Multiset Block := (calls.map Call.block).sum

theorem inFlightPages_cons (c : Call) (calls : Multiset Call) :
    inFlightPages (c ::ₘ calls) = c.inFlight + inFlightPages calls := by
  simp [inFlightPages]

theorem heldBlocks_cons (c : Call) (calls : Multiset Call) :
    heldBlocks (c ::ₘ calls) = c.block + heldBlocks calls := by
  simp [heldBlocks]

theorem taggedPages_cons (z : Zone) (b : Block) (live : Multiset Block) :
    taggedPages z (b ::ₘ live) =
      (if (z.page b.base).flags.user = true then b.size else 0) + taggedPages z live := by
  rw [taggedPages, taggedPages]
  split
  · next h => rw [filter_cons_of_pos live h, map_cons, sum_cons]
  · next h => rw [filter_cons_of_neg live h, zero_add]

theorem taggedPages_congr {z z' : Zone} {live : Multiset Block}
    (h : ∀ b ∈ live, z'.page b.base = z.page b.base) :
    taggedPages z' live = taggedPages z live := by
  rw [taggedPages]
  congr 2
  exact filter_congr fun b hb => by rw [h b hb]

/-- `pool_charge` checks that the sum is a word, and within the pool unless exempt. -/
theorem chargeAdmits_spec {pool cur npages : ℕ} {exempt : Bool} (hcur : cur < 2 ^ 32)
    (h : chargeAdmits pool cur npages exempt = true) :
    (cur + npages) % 2 ^ 32 = cur + npages ∧ cur + npages < 2 ^ 32 ∧
      (exempt = false → cur + npages ≤ pool) := by
  simp only [chargeAdmits, Bool.and_eq_true, Bool.not_eq_true', decide_eq_false_iff_not,
    Bool.or_eq_true, not_lt] at h
  obtain ⟨hroom, hpool⟩ := h
  have hlt : cur + npages < 2 ^ 32 := by omega
  refine ⟨Nat.mod_eq_of_lt hlt, hlt, fun he => ?_⟩
  rw [Nat.mod_eq_of_lt hlt] at hpool
  rcases hpool with h | h
  · exact absurd h (by simp [he])
  · exact h

/-! ### The invariant -/

variable {U : Finset ℕ} {phys : Phys} {k p : ℕ} {blocks live : Multiset Block} {s s' : PoolState}

/-- The holder of a block sets or clears its tag. -/
theorem PhysInv.setUserFlag (h : PhysInv phys (⟨p, k⟩ ::ₘ blocks) U) (u : Bool) :
    PhysInv { phys with
      zone := phys.zone.setPage p
        { phys.zone.page p with flags := { (phys.zone.page p).flags with user := u } } }
      (⟨p, k⟩ ::ₘ blocks) U := by
  have hmem : (⟨p, k⟩ : Block) ∈ ⟨p, k⟩ ::ₘ blocks := mem_cons_self _ _
  have hheld : (⟨p, k⟩ : Block) ∈ ⟨p, k⟩ ::ₘ blocks + magBlocks phys.mags := mem_add.mpr (.inl hmem)
  obtain ⟨fl, hinv⟩ := h.zone
  exact h.setPage hmem _ (h.ordered _ hheld) (hinv.flag_eq_false_of_held hheld (Block.base_mem _))

/-- The other blocks in use have other heads. -/
theorem PhysInv.base_ne (h : PhysInv phys (⟨p, k⟩ ::ₘ blocks) U) : ∀ b ∈ blocks, b.base ≠ p := by
  rintro b hb rfl
  obtain ⟨fl, hinv⟩ := h.zone
  rw [cons_add] at hinv
  have hkept : PageRef.frame b.base ∈ Kept (blocks + magBlocks phys.mags) :=
    ⟨nofun, fun x hx => ⟨b, mem_add.mpr (.inl hb), PageRef.frame.inj hx ▸ b.base_mem⟩⟩
  exact hinv.kept_not_mem hkept (Block.base_mem _)

/-- Tagging one block does not tag another. -/
theorem PhysInv.taggedPages_setPage (h : PhysInv phys (⟨p, k⟩ ::ₘ (live + blocks)) U) (pg : Page) :
    taggedPages (phys.zone.setPage p pg) live = taggedPages phys.zone live :=
  taggedPages_congr fun b hb => Function.update_of_ne (h.base_ne b (mem_add.mpr (.inl hb))) _ _

/-- What a call knows: before its charge it has added nothing, in flight its pages, and what
`pool_uncharge` loaded covers the charge. -/
def Call.Ok (c : Call) : Prop :=
  match c.pc with
  | .chargeLoad | .chargeTry _ | .refused | .returned none => c.net = 0
  | .magAlloc | .buddyAlloc | .tag _ | .unchargeLoad none => c.net = 2 ^ c.order
  | .unchargeTry none cur => c.net = 2 ^ c.order ∧ 2 ^ c.order ≤ cur
  | .unchargeTry (some _) cur => 2 ^ c.order ≤ cur
  | _ => True

/-- The invariant of runs. -/
structure PoolState.Inv (s : PoolState) (U : Finset ℕ) : Prop where
  phys : PhysInv s.phys (s.live + heldBlocks s.calls) U
  counter : s.charged = taggedPages s.phys.zone s.live + inFlightPages s.calls
  fits : s.charged < 2 ^ 32
  calls : ∀ c ∈ s.calls, c.Ok

namespace PoolState.Inv

variable {s : PoolState} {U : Finset ℕ} {c : Call} {rest : Multiset Call}

theorem ok (h : s.Inv U) : s.Ok := by
  refine ⟨h.counter, h.fits, fun c hc p cur hpc => ?_, fun c hc hpc => ?_⟩
  · have hok := h.calls c hc
    cases p with
    | none =>
      simp only [Call.Ok, hpc] at hok
      exact hok.2
    | some p =>
      simp only [Call.Ok, hpc] at hok
      exact hok
  · have hok := h.calls c hc
    simpa only [Call.Ok, hpc] using hok

theorem call_ok (h : s.Inv U) (hs : s.calls = c ::ₘ rest) : c.Ok :=
  h.calls c (hs ▸ mem_cons_self c rest)

/-- The charge of a call is on the counter. -/
theorem inFlight_le (h : s.Inv U) (hs : s.calls = c ::ₘ rest) : c.inFlight ≤ s.charged := by
  rw [h.counter, hs, inFlightPages_cons]
  omega

theorem physAt (h : s.Inv U) (hs : s.calls = c ::ₘ rest) :
    PhysInv s.phys (c.block + (s.live + heldBlocks rest)) U := by
  have hphys := h.phys
  rwa [hs, heldBlocks_cons, ← Multiset.add_assoc, Multiset.add_comm s.live,
    Multiset.add_assoc] at hphys

variable {p cur order : ℕ} {phys : Phys} {c' : Call}

/-- One call beside calls that are fine. -/
theorem join (hrest : ∀ d ∈ rest, d.Ok)
    (hphys : PhysInv phys (c'.block + (live + heldBlocks rest)) U)
    (hcounter : phys.userPoolCharged =
      taggedPages phys.zone live + (c'.inFlight + inFlightPages rest))
    (hfits : phys.userPoolCharged < 2 ^ 32) (hok : c'.Ok) :
    Inv { s with phys := phys, calls := c' ::ₘ rest, live := live } U := by
  refine ⟨?_, ?_, hfits, forall_mem_cons.mpr ⟨hok, hrest⟩⟩
  · rwa [heldBlocks_cons, ← Multiset.add_assoc, Multiset.add_comm live, Multiset.add_assoc]
  · rw [inFlightPages_cons]
    exact hcounter

/-- **One call moves**: its block, the tagged pages and its charge account for the step. -/
theorem move (h : s.Inv U) (hs : s.calls = c ::ₘ rest) (hphys : PhysInv phys (c'.block + (live + heldBlocks rest)) U)
    (hcount : phys.userPoolCharged + (taggedPages s.phys.zone s.live + c.inFlight) =
      s.charged + (taggedPages phys.zone live + c'.inFlight))
    (hfits : phys.userPoolCharged < 2 ^ 32) (hok : c'.Ok) :
    Inv { s with phys := phys, calls := c' ::ₘ rest, live := live } U := by
  refine join (fun d hd => h.calls d (hs ▸ mem_cons_of_mem hd)) hphys ?_ hfits hok
  have hcounter := h.counter
  rw [hs, inFlightPages_cons] at hcounter
  omega

/-- A step that only moves the program counter. -/
theorem goto (h : s.Inv U) (hs : s.calls = c ::ₘ rest) (hblock : c'.block = c.block)
    (hpages : c'.inFlight = c.inFlight) (hok : c'.Ok) :
    Inv { s with calls := c' ::ₘ rest } U := by
  refine h.move hs ?_ ?_ h.fits hok
  · rw [hblock]
    exact h.physAt hs
  · rw [hpages]
    rfl

/-- A step that moves call `c` with what it held. -/
theorem pass (h : s.Inv U) (hs : s.calls = c ::ₘ rest) {pc pc' : CallPc} (hpc : c.pc = pc)
    (hblock : { c with pc := pc' }.block = { c with pc := pc }.block := by rfl)
    (hpages : { c with pc := pc' }.inFlight = { c with pc := pc }.inFlight := by rfl)
    (hok : { c with pc := pc }.Ok → { c with pc := pc' }.Ok := by exact id) :
    Inv (s.move c rest pc' s.phys s.live) U := by
  subst hpc
  rw [PoolState.move, sub_self, add_zero]
  exact h.goto hs hblock hpages (hok (h.call_ok hs))

/-- The page allocator, keeping the callers' blocks. -/
theorem tagged_eq {blocks : Multiset Block} (hf : s.phys.Frame phys (s.live + blocks)) :
    taggedPages phys.zone s.live = taggedPages s.phys.zone s.live :=
  taggedPages_congr fun b hb => hf.page_eq (mem_add.mpr (.inl hb)) b.base_mem

variable (h : s.Inv U)
include h

section

variable (hs : s.calls = c ::ₘ rest)
include hs

/-- A step of the page allocator on behalf of a call. -/
theorem movePhys (hphys : PhysInv phys (c'.block + (s.live + heldBlocks rest)) U)
    (hf : s.phys.Frame phys (s.live + heldBlocks rest)) (hpages : c'.inFlight = c.inFlight)
    (hok : c'.Ok) : Inv { s with phys := phys, calls := c' ::ₘ rest } U := by
  have hcharged : phys.userPoolCharged = s.charged := hf.charged
  refine h.move hs hphys ?_ (hcharged ▸ h.fits) hok
  rw [tagged_eq hf, hpages, hcharged]

/-! ### Steps of the pool -/

/-- (Re)loading the counter in `pool_uncharge`. -/
theorem loadUncharge {p : Option ℕ}
    (hpc : c.pc = .unchargeLoad p ∨ ∃ cur, c.pc = .unchargeTry p cur) :
    Inv (s.move c rest (.unchargeTry p s.charged) s.phys s.live) U := by
  have hle := h.inFlight_le hs
  rcases hpc with hpc | ⟨cur, hpc⟩
  all_goals
    simp only [Call.inFlight, hpc] at hle
    refine h.pass hs hpc (by cases p <;> rfl) rfl ?_
    cases p <;> simp +contextual [Call.Ok, hle]

/-- **A charge lands.** -/
theorem charge (hpc : c.pc = .chargeTry cur)
    (hyes : chargeAdmits s.poolPages cur (2 ^ c.order) c.exempt = true)
    (hcur : s.charged = cur) :
    Inv (s.move c rest .magAlloc
      { s.phys with userPoolCharged := (cur + 2 ^ c.order) % 2 ^ 32 } s.live) U := by
  subst hcur
  obtain ⟨hmod, hlt, -⟩ := chargeAdmits_spec h.fits hyes
  have hok := h.call_ok hs
  simp only [Call.Ok, hpc] at hok
  have hphys := h.physAt hs
  refine h.move hs ?_ ?_ ?_ ?_
  · simp only [Call.block, hpc] at hphys ⊢
    exact ⟨hphys.zone, hphys.counts, hphys.ordered⟩
  · simp only [Call.inFlight, hpc]
    omega
  · rw [hmod]
    exact hlt
  · simp only [hok, hmod]
    change (0 : ℤ) + (((s.charged + 2 ^ c.order : ℕ) : ℤ) - (s.charged : ℤ)) = 2 ^ c.order
    push_cast
    omega

/-- **A charge is returned.** -/
theorem uncharge {p : Option ℕ} (hpc : c.pc = .unchargeTry p cur) (hcur : s.charged = cur) :
    Inv (s.move c rest (match p with
      | none => .returned none
      | some p => .magFree p)
      { s.phys with userPoolCharged := poolUncharge cur (2 ^ c.order) } s.live) U := by
  subst hcur
  have hle : 2 ^ c.order ≤ s.charged := by
    have hle := h.inFlight_le hs
    simpa only [Call.inFlight, hpc] using hle
  have hval : poolUncharge s.charged (2 ^ c.order) = s.charged - 2 ^ c.order := if_pos hle
  have hfits : poolUncharge s.charged (2 ^ c.order) < 2 ^ 32 := by
    rw [hval]
    exact (Nat.sub_le _ _).trans_lt h.fits
  have hok := h.call_ok hs
  have hphys := h.physAt hs
  refine h.move hs ?_ ?_ hfits ?_
  · cases p <;> simp only [Call.block, hpc] at hphys ⊢ <;>
      exact ⟨hphys.zone, hphys.counts, hphys.ordered⟩
  · cases p <;> simp only [Call.inFlight, hpc] <;> omega
  · cases p with
    | none =>
      simp only [Call.Ok, hpc] at hok
      simp only [hok.1, hval]
      change ((2 : ℤ) ^ c.order + (((s.charged - 2 ^ c.order : ℕ) : ℤ) - (s.charged : ℤ))) = 0
      push_cast [Nat.cast_sub hle]
      omega
    | some p => trivial

/-! ### Steps of the page allocator -/

/-- A block comes out of the allocator. -/
theorem allocated (hpc : c.pc = .magAlloc ∨ c.pc = .buddyAlloc)
    (hphys : PhysInv phys (⟨p, c.order⟩ ::ₘ (s.live + heldBlocks rest)) U)
    (hf : s.phys.Frame phys (s.live + heldBlocks rest)) :
    Inv (s.move c rest (.tag p) phys s.live) U := by
  have hok := h.call_ok hs
  have hcharged : phys.userPoolCharged = s.phys.userPoolCharged := hf.charged
  refine h.movePhys hs ?_ hf ?_ ?_
  · simpa only [Call.block, singleton_add] using hphys
  · rcases hpc with hpc | hpc <;> simp only [Call.inFlight, hpc]
  · rcases hpc with hpc | hpc
    all_goals
      simp only [Call.Ok, hpc] at hok
      simpa [Call.Ok, hcharged] using hok

/-- A block goes back into the allocator. -/
theorem released (hpc : c.pc = .magFree p ∨ c.pc = .buddyFree p)
    (hphys : PhysInv phys (s.live + heldBlocks rest) U)
    (hf : s.phys.Frame phys (s.live + heldBlocks rest)) :
    Inv (s.move c rest .freed phys s.live) U := by
  refine h.movePhys hs ?_ hf ?_ trivial
  · simpa only [Call.block, zero_add] using hphys
  · rcases hpc with hpc | hpc <;> simp only [Call.inFlight, hpc]

/-- The allocator while call `c` holds no block. -/
theorem phys_of_none {pc : CallPc} (hpc : c.pc = pc)
    (hnone : { c with pc := pc }.block = 0 := by rfl) :
    PhysInv s.phys (s.live + heldBlocks rest) U := by
  subst hpc
  have hphys := h.physAt hs
  rwa [hnone, zero_add] at hphys

/-- The allocator while call `c` holds block `p`. -/
theorem phys_of_block {pc : CallPc} (hpc : c.pc = pc)
    (hblock : { c with pc := pc }.block = {⟨p, c.order⟩} := by rfl) :
    PhysInv s.phys (⟨p, c.order⟩ ::ₘ (s.live + heldBlocks rest)) U := by
  subst hpc
  have hphys := h.physAt hs
  rwa [hblock] at hphys

/-- **A block is tagged** and handed to the caller. -/
theorem tag (hpc : c.pc = .tag p) :
    Inv (s.move c rest (.returned (some p)) { s.phys with zone := s.phys.zone.setUser p }
      (⟨p, c.order⟩ ::ₘ s.live)) U := by
  have hphys := h.phys_of_block hs (p := p) hpc
  refine h.move hs ?_ ?_ h.fits trivial
  · rw [cons_add]
    simp only [Call.block, zero_add]
    exact hphys.setUserFlag true
  · have htag : taggedPages (s.phys.zone.setUser p) s.live = taggedPages s.phys.zone s.live :=
      hphys.taggedPages_setPage _
    rw [taggedPages_cons, htag]
    simp [Call.inFlight, hpc, Zone.setUser, Zone.setPage, charged]
    omega

end

/-- **`free_pages` clears the tag** of a user block: its charge is in flight. -/
theorem freeUser (hb : ⟨p, order⟩ ∈ s.live) (huser : (s.phys.zone.page p).flags.user = true) :
    Inv { s with
      phys := { s.phys with zone := s.phys.zone.clearUser p }
      calls := ⟨order, false, .unchargeLoad (some p), 0⟩ ::ₘ s.calls
      live := s.live.erase ⟨p, order⟩ } U := by
  have hphys := h.phys
  rw [← cons_erase hb, cons_add] at hphys
  have htag : taggedPages (s.phys.zone.clearUser p) (s.live.erase ⟨p, order⟩) =
      taggedPages s.phys.zone (s.live.erase ⟨p, order⟩) := hphys.taggedPages_setPage _
  refine join h.calls ?_ ?_ h.fits trivial
  · exact hphys.setUserFlag false
  · have hcounter := h.counter
    rw [← cons_erase hb, taggedPages_cons, if_pos huser] at hcounter
    change s.charged = taggedPages (s.phys.zone.clearUser p) _ + (Block.size ⟨p, order⟩ + _)
    omega

/-- **`free_pages`** of a kernel block goes to the magazine. -/
theorem freeKernel (hb : ⟨p, order⟩ ∈ s.live) (huser : (s.phys.zone.page p).flags.user = false) :
    Inv { s with
      calls := ⟨order, false, .magFree p, 0⟩ ::ₘ s.calls
      live := s.live.erase ⟨p, order⟩ } U := by
  have hphys := h.phys
  rw [← cons_erase hb, cons_add] at hphys
  refine join h.calls ?_ ?_ h.fits trivial
  · simpa only [Call.block, singleton_add] using hphys
  · have hcounter := h.counter
    rw [← cons_erase hb, taggedPages_cons, if_neg (by simp [huser])] at hcounter
    change s.charged = taggedPages s.phys.zone _ + (0 + _)
    omega

end PoolState.Inv

/-- **One step** keeps the invariant, and the counter moves as it says. -/
theorem PoolStep.spec {e : PoolEvent} (hstep : PoolStep s e s') (h : s.Inv U) :
    s'.Inv U ∧ e.Ok s s' := by
  cases hstep with
  | start order exempt =>
    refine ⟨?_, rfl⟩
    by_cases hord : order > maxOrder
    all_goals
      simp only [hord, ↓reduceIte]
      refine PoolState.Inv.join h.calls ?_ ?_ h.fits rfl
      · simpa only [Call.block, zero_add] using h.phys
      · rw [Call.inFlight, zero_add]
        exact h.counter
  | chargeLoad hs hpc | chargeRefused hs hpc hno | chargeRetry hs hpc hyes
  | giveUp hs hpc | askAgain hs hpc =>
    exact ⟨h.pass hs hpc, rfl⟩
  | chargeLands hs hpc hyes hcur =>
    refine ⟨h.charge hs hpc hyes hcur, ?_⟩
    subst hcur
    obtain ⟨hmod, -, hpool⟩ := chargeAdmits_spec h.fits hyes
    exact ⟨hmod, fun he => hmod.trans_le (hpool he)⟩
  | @magHit c rest cpu p phys hs hpc heq =>
    have hnone := h.phys_of_none hs hpc
    obtain ⟨⟨⟩, -⟩ | ⟨_, ⟨⟩, hphys, hf, -⟩ := alloc_answer heq (hnone.magAlloc_spec cpu c.order)
    exact ⟨h.allocated hs (.inl hpc) hphys hf, hf.charged⟩
  | @magMiss c rest cpu phys hs hpc heq =>
    have hnone := h.phys_of_none hs hpc
    obtain ⟨-, rfl, -⟩ | ⟨_, ⟨⟩, -⟩ := alloc_answer heq (hnone.magAlloc_spec cpu c.order)
    exact ⟨h.pass hs hpc, rfl⟩
  | @buddyHit c rest p z hs hpc heq =>
    have hnone := h.phys_of_none hs hpc
    obtain ⟨⟨⟩, -⟩ | ⟨_, ⟨⟩, hphys, hf, -⟩ := alloc_answer heq (hnone.buddyAlloc_spec c.order)
    exact ⟨h.allocated hs (.inr hpc) hphys hf, hf.charged⟩
  | @buddyNull c rest z hs hpc heq =>
    have hnone := h.phys_of_none hs hpc
    obtain ⟨-, rfl, -⟩ | ⟨_, ⟨⟩, -⟩ := alloc_answer heq (hnone.buddyAlloc_spec c.order)
    exact ⟨h.pass hs hpc, rfl⟩
  | tag hs hpc => exact ⟨h.tag hs hpc, rfl⟩
  | unchargeLoad hs hpc => exact ⟨h.loadUncharge hs (.inl hpc), rfl⟩
  | @unchargeLands c rest p cur hs hpc hcur =>
    refine ⟨h.uncharge hs hpc hcur, ?_⟩
    subst hcur
    have hle : 2 ^ c.order ≤ s.charged := by
      have hle := h.inFlight_le hs
      simpa only [Call.inFlight, hpc] using hle
    rw [poolUncharge, if_pos hle]
    exact Nat.sub_add_cancel hle
  | unchargeRetry hs hpc => exact ⟨h.loadUncharge hs (.inr ⟨_, hpc⟩), rfl⟩
  | freeUser hb huser => exact ⟨h.freeUser hb huser, rfl⟩
  | freeKernel hb huser => exact ⟨h.freeKernel hb huser, rfl⟩
  | @magTakes c rest cpu p phys hs hpc heq =>
    rcases (h.phys_of_block hs (p := p) hpc).magFree_spec cpu with
      hno | ⟨phys', hyes, hphys, hf⟩
    · cases heq.symm.trans hno
    · cases heq.symm.trans hyes
      exact ⟨h.released hs (.inl hpc) hphys hf, hf.charged⟩
  | @magRefuses c rest cpu p phys hs hpc heq =>
    rcases (h.phys_of_block hs (p := p) hpc).magFree_spec cpu with
      hno | ⟨phys', hyes, -⟩
    · cases heq.symm.trans hno
      exact ⟨h.pass hs hpc, rfl⟩
    · cases heq.symm.trans hyes
  | @buddyTakes c rest p z hs hpc heq =>
    obtain ⟨z', hz, hphys, hf⟩ :=
      (h.phys_of_block hs (p := p) hpc).buddyFree_spec
    cases heq.symm.trans hz
    exact ⟨h.released hs (.inr hpc) hphys hf, hf.charged⟩
  | @kernelAlloc cpu order p phys heq =>
    obtain ⟨⟨⟩, -⟩ | ⟨_, ⟨⟩, hphys, hf, hflags⟩ :=
      alloc_answer heq (h.phys.allocPages_spec cpu order)
    have hcharged : phys.userPoolCharged = s.charged := hf.charged
    refine ⟨⟨by rwa [cons_add], ?_, hcharged.trans_lt h.fits, h.calls⟩, hcharged⟩
    change phys.userPoolCharged = taggedPages phys.zone (⟨p, order⟩ ::ₘ s.live) + _
    rw [taggedPages_cons, if_neg (by simp [hflags]), PoolState.Inv.tagged_eq hf, hcharged, zero_add]
    exact h.counter

/-- Some thread takes a step. -/
def PoolState.Step (s s' : PoolState) : Prop := ∃ e, PoolStep s e s'

/-- **A run** keeps the invariant. -/
theorem PoolStep.run_inv (hrun : Relation.ReflTransGen PoolState.Step s s')
    (h : s.Inv U) : s'.Inv U := by
  induction hrun with
  | refl => exact h
  | tail _ hstep ih =>
    obtain ⟨e, hstep⟩ := hstep
    exact (hstep.spec ih).1

/-- **User pool accounting.** After boot, under every interleaving of calls, the counter is
exact in every state and every step does to it what it says. -/
theorem user_pool_accounting (mem : Zone) (zone : PageRange) (regions : List PageRange)
    (hs : Seeding zone regions) (mags : ℕ × ℕ → List ℕ) (poolPages : ℕ) :
    ∃ z, bootZone mem zone regions = some z ∧
      ∀ s, Relation.ReflTransGen PoolState.Step ⟨magazinesInit ⟨z, mags, 0⟩, poolPages, 0, 0⟩ s →
        s.Ok ∧ ∀ e s', PoolStep s e s' → e.Ok s s' := by
  obtain ⟨z, fl, hz, hinv, -, -⟩ := bootZone_spec mem hs
  refine ⟨z, hz, fun s hrun => ?_⟩
  have hboot : PoolState.Inv ⟨magazinesInit ⟨z, mags, 0⟩, poolPages, 0, 0⟩ (managed regions) := by
    refine ⟨?_, rfl, Nat.two_pow_pos 32, fun c hc => absurd hc (notMem_zero c)⟩
    exact physInv_boot hinv mags 0
  have h := PoolStep.run_inv hrun hboot
  exact ⟨h.ok, fun e s' hstep => (hstep.spec h).2⟩

/-- Sixteen pages, a pool of eight. -/
theorem user_pool_accounting_sixteen_pages :
    ∃ z, bootZone zeroMemory sixteenPages thirteenManaged = some z ∧
      ∀ s, Relation.ReflTransGen PoolState.Step ⟨magazinesInit ⟨z, fun _ => [], 0⟩, 8, 0, 0⟩ s →
        s.Ok ∧ ∀ e s', PoolStep s e s' → e.Ok s s' :=
  user_pool_accounting zeroMemory _ _ ⟨by decide, by decide⟩ _ _

end Thylacine
