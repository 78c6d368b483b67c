import Thylacine.Allowance.Allowance
import Thylacine.Handle.Handle

/-!
# Hardware Authority over Whole Runs

Two systems over `kernel/allowance.c`. A `Family` is a tree of Procs that spawn, confer and
revoke in any order. A `Race` is one allowance with any number of creates in flight and a revoke
among them, interleaved between any two steps of the code.

## Main results

* `hardware_authority_narrows`: authority only narrows along every chain of a family, and once the
  revoke has returned, no create installs a handle.
-/

namespace Thylacine

open Function (update update_of_ne update_self)
open Option (some_ne_none)
open Relation

/-! ### Spawn chains -/

/-- A Proc, as far as hardware goes: its spawner and its allowance. -/
structure HwProc where
  parent : Option ℕ
  allowance : Option Allowance

/-- All Procs. -/
abbrev Family := ℕ → Option HwProc

namespace Family

/-- A spawn with a copy or with a confer, or a revoke. -/
inductive Step : Family → Family → Prop
  | rfork (f : Family) (p c : ℕ) (oom : Bool) (P : HwProc) (al : Option Allowance)
      (hp : f p = some P) (hc : f c = none)
      (h : allowanceCloneInto P.allowance oom = some al) :
      Step f (Function.update f c (some ⟨some p, al⟩))
  | confer (f : Family) (p c : ℕ) (oom : Bool) (P : HwProc) (d : AllowanceArgs) (al : Allowance)
      (hp : f p = some P) (hc : f c = none)
      (hgate : allowanceConferWithinParent P.allowance d = true)
      (h : procConferAllowance d oom = some al) :
      Step f (Function.update f c (some ⟨some p, some al⟩))
  | revoke (f : Family) (p : ℕ) (P : HwProc) (hp : f p = some P) :
      Step f (Function.update f p (some { P with allowance := P.allowance.map Allowance.revoke }))

/-- Procs without parents, with any allowances. -/
def Roots (f : Family) : Prop := ∀ p P, f p = some P → P.parent = none

def Reachable (f : Family) : Prop := ∃ f₀, Roots f₀ ∧ ReflTransGen Step f₀ f

/-- `p` spawned `c`. -/
def Spawned (f : Family) (p c : ℕ) : Prop := ∃ C, f c = some C ∧ C.parent = some p

/-- A narrowed `P` has only narrowed children, **within** its own set. -/
def NarrowedBy (C P : HwProc) : Prop :=
  ∀ al, P.allowance = some al → ∃ al', C.allowance = some al' ∧ al'.Within al

/-- Every child is narrowed by its parent. -/
def Narrowing (f : Family) : Prop :=
  ∀ c C, f c = some C → ∀ p, C.parent = some p → ∃ P, f p = some P ∧ NarrowedBy C P

variable {f f' : Family} {p c : ℕ} {P : HwProc}

/-- A new Proc that its parent narrows changes no other. -/
theorem Narrowing.spawn (h : f.Narrowing) {al : Option Allowance}
    (hp : f p = some P) (hc : f c = none) (hal : NarrowedBy ⟨some p, al⟩ P) :
    Narrowing (update f c (some ⟨some p, al⟩)) := by
  have hne {q : ℕ} {Q : HwProc} (hq : f q = some Q) : q ≠ c := by
    rintro rfl
    rw [hc] at hq
    cases hq
  intro d D hd q hq
  by_cases hdc : d = c
  · rw [hdc, update_self] at hd
    cases hd
    cases hq
    exact ⟨P, (update_of_ne (hne hp) _ _).trans hp, hal⟩
  · rw [update_of_ne hdc] at hd
    obtain ⟨Q, hQ, hnar⟩ := h d D hd q hq
    exact ⟨Q, (update_of_ne (hne hQ) _ _).trans hQ, hnar⟩

/-- A revoke moves no set. -/
theorem Narrowing.revoke (h : f.Narrowing) (hp : f p = some P) : Narrowing
      (update f p (some { P with allowance := P.allowance.map Allowance.revoke })) := by
  -- Each Proc after the step is one before it, up to the flag.
  have hset {q : ℕ} {Q : HwProc} (hq : update f p
      (some { P with allowance := P.allowance.map Allowance.revoke }) q = some Q) :
      ∃ Q', f q = some Q' ∧ Q.parent = Q'.parent ∧
        (Q.allowance = Q'.allowance ∨ Q.allowance = Q'.allowance.map Allowance.revoke) := by
    by_cases hqp : q = p
    · rw [hqp, update_self] at hq
      cases hq
      exact ⟨P, hqp ▸ hp, rfl, .inr rfl⟩
    · rw [update_of_ne hqp] at hq
      exact ⟨Q, hq, rfl, .inl rfl⟩
  intro c C hc q hq
  obtain ⟨C', hC', hpar, hal⟩ := hset hc
  obtain ⟨Q', hQ', hnar⟩ := h c C' hC' q (hpar ▸ hq)
  obtain ⟨Q, hQ⟩ : ∃ Q, update f p
      (some { P with allowance := P.allowance.map Allowance.revoke }) q = some Q := by
    by_cases hqp : q = p
    · exact ⟨_, by rw [hqp, update_self]⟩
    · exact ⟨Q', (update_of_ne hqp _ _).trans hQ'⟩
  refine ⟨Q, hQ, fun al hQal => ?_⟩
  obtain ⟨Q'', hQ'', -, hQset⟩ := hset hQ
  obtain rfl : Q' = Q'' := Option.some.inj (hQ'.symm.trans hQ'')
  obtain ⟨al₀, hal₀, hwithin₀⟩ : ∃ al₀, Q'.allowance = some al₀ ∧ al₀.Within al := by
    obtain heq | heq := hQset
    · exact ⟨al, heq.symm.trans hQal, fun _ _ _ => id⟩
    · rw [hQal] at heq
      obtain ⟨al₀, hal₀, rfl⟩ := Option.map_eq_some_iff.mp heq.symm
      exact ⟨al₀, hal₀, fun _ _ _ => id⟩
  obtain ⟨al', hal', hwithin⟩ := hnar al₀ hal₀
  obtain heq | heq := hal
  · exact ⟨al', heq.trans hal', hwithin.trans hwithin₀⟩
  · refine ⟨al'.revoke, by rw [heq, hal']; rfl, ?_⟩
    exact fun kind a b hp => hwithin₀ kind a b (hwithin kind a b hp)

theorem Narrowing.step (h : f.Narrowing) (hstep : Step f f') : f'.Narrowing := by
  cases hstep with
  | rfork p c oom P al hp hc hclone =>
    refine h.spawn hp hc fun src hsrc => ?_
    rw [hsrc] at hclone
    exact allowanceCloneInto_within hclone
  | confer p c oom P d al hp hc hgate hconfer =>
    refine h.spawn hp hc fun src hsrc => ?_
    rw [hsrc] at hgate
    exact ⟨al, rfl, procConferAllowance_within hgate hconfer⟩
  | revoke p P hp => exact h.revoke hp

theorem Reachable.narrowing (h : f.Reachable) : f.Narrowing := by
  obtain ⟨f₀, hroots, hrun⟩ := h
  induction hrun with
  | refl =>
    intro c C hc p hp
    rw [hroots c C hc] at hp
    cases hp
  | tail _ hstep ih => exact ih.step hstep

/-- Down a **chain** of spawns every Proc is narrowed further. -/
theorem Reachable.narrows (h : f.Reachable) {a : ℕ} {A : HwProc} {al : Allowance}
    (hchain : TransGen f.Spawned a c) (ha : f a = some A) (hal : A.allowance = some al) :
    ∃ C al', f c = some C ∧ C.allowance = some al' ∧ al'.Within al := by
  induction hchain with
  | single hspawn =>
    obtain ⟨C, hc, hpar⟩ := hspawn
    obtain ⟨P, hP, hnar⟩ := h.narrowing _ C hc a hpar
    cases ha.symm.trans hP
    obtain ⟨al', hal', hwithin⟩ := hnar al hal
    exact ⟨C, al', hc, hal', hwithin⟩
  | tail _ hspawn ih =>
    obtain ⟨B, alB, hB, halB, hwithinB⟩ := ih
    obtain ⟨C, hc, hpar⟩ := hspawn
    obtain ⟨P, hP, hnar⟩ := h.narrowing _ C hc _ hpar
    cases hB.symm.trans hP
    obtain ⟨al', hal', hwithin⟩ := hnar alB halB
    exact ⟨C, al', hc, hal', hwithin.trans hwithinB⟩

end Family

/-! ### Revoke against create -/

/-- Where a create stands; `handle_alloc` runs between `clear` and `leaving`. -/
inductive CreatePc where
  | start
  | permitted
  | waiting
  | holding
  | clear
  | leaving (h : ℤ)
  | returned (h : ℤ)
  deriving DecidableEq

/-- Between the lock and the unlock. -/
def CreatePc.inside : CreatePc → Bool
  | .holding | .clear | .leaving _ => true
  | _ => false

/-- Where the revoke stands. -/
inductive RevokePc where
  | start
  | holding
  | stored
  | returned

/-- Who holds the lock of the allowance. -/
inductive LockOwner where
  | create (i : ℕ)
  | revoke

/-- What a create asks for, and the handle it would install. -/
structure CreateArgs where
  kind : HwResKind
  a : UInt64
  b : UInt64
  handle : Handle

/-- A narrowed Proc `proc`, with its creates and the handles that `allowance_handle_alloc`
installed. -/
structure Race where
  al : Allowance
  owner : Option LockOwner
  creates : ℕ → CreatePc
  revoke : RevokePc
  handles : Handles
  installs : List (ℕ × ℤ)

namespace Race

variable (proc : ℕ) (args : ℕ → CreateArgs)

def setPc (s : Race) (i : ℕ) (pc : CreatePc) : Race :=
  { s with creates := Function.update s.creates i pc }

theorem setPc_self (s : Race) (i : ℕ) (pc : CreatePc) : (s.setPc i pc).creates i = pc :=
  update_self ..

theorem setPc_of_ne {s : Race} {i j : ℕ} {pc : CreatePc} (h : j ≠ i) :
    (s.setPc i pc).creates j = s.creates j :=
  update_of_ne h ..

/-- One access to shared state; before, a create passes the gate and makes the object, or fails. -/
inductive Step : Race → Race → Prop
  | gate (s : Race) (i : ℕ) (h : s.creates i = .start) :
      Step s (s.setPc i
        (if allowancePermits (some s.al) (args i).kind (args i).a (args i).b then .permitted
          else .returned (-1)))
  | make (s : Race) (i : ℕ) (ok : Bool) (h : s.creates i = .permitted) :
      Step s (s.setPc i (if ok then .waiting else .returned (-1)))
  | lock (s : Race) (i : ℕ) (h : s.creates i = .waiting) (hfree : s.owner = none) :
      Step s ({ s with owner := some (.create i) }.setPc i .holding)
  | recheck (s : Race) (i : ℕ) (h : s.creates i = .holding) :
      Step s (s.setPc i (if s.al.revoked then .leaving (-1) else .clear))
  | install (s : Race) (i : ℕ) (h : s.creates i = .clear) :
      Step s (Race.setPc
        { s with
          handles := (s.handles.handleAlloc proc (args i).handle).2
          installs :=
            if (s.handles.handleAlloc proc (args i).handle).1 < 0 then s.installs
            else (i, (s.handles.handleAlloc proc (args i).handle).1) :: s.installs }
        i (.leaving (s.handles.handleAlloc proc (args i).handle).1))
  | unlock (s : Race) (i : ℕ) (r : ℤ) (h : s.creates i = .leaving r) :
      Step s ({ s with owner := none }.setPc i (.returned r))
  | revokeLock (s : Race) (h : s.revoke = .start) (hfree : s.owner = none) :
      Step s { s with owner := some .revoke, revoke := .holding }
  | revokeStore (s : Race) (h : s.revoke = .holding) :
      Step s { s with al := s.al.revoke, revoke := .stored }
  | revokeUnlock (s : Race) (h : s.revoke = .stored) :
      Step s { s with owner := none, revoke := .returned }
  | elsewhere (s : Race) (handles : Handles) : Step s { s with handles }

/-- An allowance with no create and no revoke begun. -/
def init (al : Allowance) (handles : Handles) : Race where
  al
  owner := none
  creates _ := .start
  revoke := .start
  handles
  installs := []

def Reachable (s : Race) : Prop :=
  ∃ al handles, ReflTransGen (Step proc args) (init al handles) s

/-- The lock excludes, and guards the flag. -/
structure Inv (s : Race) : Prop where
  inside : ∀ i, (s.creates i).inside = true → s.owner = some (.create i)
  revoking : s.revoke = .holding ∨ s.revoke = .stored → s.owner = some .revoke
  clear : ∀ i, s.creates i = .clear → s.al.revoked = false
  stored : s.revoke = .stored ∨ s.revoke = .returned → s.al.revoked = true

theorem init_inv (al : Allowance) (handles : Handles) : (init al handles).Inv where
  inside := nofun
  revoking h := h.elim nofun nofun
  clear _ h := nomatch h
  stored h := h.elim nofun nofun

variable {proc args} {s s' : Race} {i : ℕ} {pc : CreatePc}

/-- A create moving **without the lock** stays outside. -/
theorem Inv.outside (h : s.Inv) (hpc : pc.inside = false) : (s.setPc i pc).Inv := by
  have hother {j : ℕ} (hj : ((s.setPc i pc).creates j).inside = true) :
      j ≠ i ∧ (s.setPc i pc).creates j = s.creates j := by
    by_cases hji : j = i
    · rw [hji, setPc_self, hpc] at hj
      exact absurd hj Bool.false_ne_true
    · exact ⟨hji, setPc_of_ne hji⟩
  refine ⟨fun j hj => ?_, h.revoking, fun j hj => ?_, h.stored⟩
  · exact h.inside j ((hother hj).2 ▸ hj)
  · have hj' := hother (by rw [hj]; rfl)
    exact h.clear j (hj'.2 ▸ hj)

/-- A create **that holds the lock** moves on inside. -/
theorem Inv.within (h : s.Inv) (hi : s.owner = some (.create i))
    (hclear : pc = .clear → s.al.revoked = false) : (s.setPc i pc).Inv := by
  refine ⟨fun j hj => ?_, h.revoking, fun j hj => ?_, h.stored⟩
  · by_cases hji : j = i
    · rw [hji]
      exact hi
    · rw [setPc_of_ne hji] at hj
      exact h.inside j hj
  · by_cases hji : j = i
    · rw [hji, setPc_self] at hj
      exact hclear hj
    · rw [setPc_of_ne hji] at hj
      exact h.clear j hj

/-- While the lock is free, nobody is inside. -/
theorem Inv.not_inside (h : s.Inv) (hfree : s.owner = none) (i : ℕ) :
    (s.creates i).inside = false := by
  by_contra hi
  rw [Bool.not_eq_false] at hi
  rw [h.inside i hi] at hfree
  cases hfree

/-- **Step lemma.** -/
theorem Inv.step (h : s.Inv) (hstep : Step proc args s s') : s'.Inv := by
  cases hstep with
  | gate | make =>
    refine h.outside ?_
    split <;> rfl
  | lock i hi hfree =>
    have hlocked : Inv { s with owner := some (.create i) } := by
      refine ⟨fun j hj => ?_, fun hr => ?_, h.clear, h.stored⟩
      · exact absurd ((h.not_inside hfree j).symm.trans hj) Bool.false_ne_true
      · rw [h.revoking hr] at hfree
        cases hfree
    exact hlocked.within rfl nofun
  | recheck i hi =>
    refine h.within (h.inside i (by rw [hi]; rfl)) fun hclear => ?_
    cases hrev : s.al.revoked with
    | false => rfl
    | true =>
      rw [hrev] at hclear
      exact nomatch hclear
  | install i hi =>
    have hown := h.inside i (by rw [hi]; rfl)
    refine within ?_ hown nofun
    exact ⟨h.inside, h.revoking, h.clear, h.stored⟩
  | unlock i r hi =>
    have hown := h.inside i (by rw [hi]; rfl)
    -- The owner leaves, and by the lock there is no other inside.
    have hone {j : ℕ} (hj : (s.creates j).inside = true) : j = i := by
      have heq := (h.inside j hj).symm.trans hown
      injection heq with heq
      injection heq
    refine ⟨fun j hj => ?_, fun hr => ?_, fun j hj => ?_, h.stored⟩
    · by_cases hji : j = i
      · rw [hji, setPc_self] at hj
        cases hj
      · rw [setPc_of_ne hji] at hj
        exact absurd (hone hj) hji
    · have heq := (h.revoking hr).symm.trans hown
      exact nomatch heq
    · by_cases hji : j = i
      · rw [hji, setPc_self] at hj
        exact nomatch hj
      · rw [setPc_of_ne hji] at hj
        exact h.clear j hj
  | revokeLock hr hfree =>
    refine ⟨fun j hj => ?_, fun _ => rfl, h.clear, fun hst => hst.elim nofun nofun⟩
    exact absurd ((h.not_inside hfree j).symm.trans hj) Bool.false_ne_true
  | revokeStore hr =>
    have hown := h.revoking (.inl hr)
    refine ⟨h.inside, fun _ => hown, fun j hj => ?_, fun _ => rfl⟩
    -- A create past its check would hold the lock that the revoke holds.
    have heq := (h.inside j (by rw [hj]; rfl)).symm.trans hown
    exact nomatch heq
  | revokeUnlock hr =>
    have hown := h.revoking (.inr hr)
    refine ⟨fun j hj => ?_, fun hst => hst.elim nofun nofun, h.clear, fun _ => h.stored (.inl hr)⟩
    have heq := (h.inside j hj).symm.trans hown
    exact nomatch heq
  | elsewhere => exact ⟨h.inside, h.revoking, h.clear, h.stored⟩

theorem Reachable.inv (h : s.Reachable proc args) : s.Inv := by
  obtain ⟨al, handles, hrun⟩ := h
  induction hrun with
  | refl => exact init_inv al handles
  | tail _ hstep ih => exact ih.step hstep

/-- A revoke stays returned, and then **no step installs**. -/
theorem Inv.step_returned (h : s.Inv) (hret : s.revoke = .returned) (hstep : Step proc args s s') :
    s'.revoke = .returned ∧ s'.installs = s.installs := by
  cases hstep with
  | install i hi =>
    have hrev := h.stored (.inr hret)
    rw [h.clear i hi] at hrev
    cases hrev
  | revokeLock hr | revokeStore hr | revokeUnlock hr => exact nomatch hr.symm.trans hret
  | _ => exact ⟨hret, rfl⟩

theorem Reachable.no_install (h : s.Reachable proc args) (hret : s.revoke = .returned)
    (hrun : ReflTransGen (Step proc args) s s') : s'.installs = s.installs := by
  obtain ⟨al, handles, hpre⟩ := h
  have hboth : s'.revoke = .returned ∧ s'.installs = s.installs := by
    induction hrun with
    | refl => exact ⟨hret, rfl⟩
    | tail hrun' hstep ih =>
      have hinv := inv ⟨al, handles, hpre.trans hrun'⟩
      obtain ⟨hret', heq⟩ := hinv.step_returned ih.1 hstep
      exact ⟨hret', heq.trans ih.2⟩
  exact hboth.2

end Race

/-! ### The two together -/

/-- **Hardware authority only narrows** in every family of Procs, down every chain of spawns,
whatever is revoked meanwhile; and in every race of creates with a revoke of their allowance, the
handles installed when the revoke returns are all there will ever be. -/
theorem hardware_authority_narrows :
    (∀ (f : Family) (a c : ℕ) (A C : HwProc) (alA alC : Allowance), f.Reachable →
      TransGen f.Spawned a c → f a = some A → f c = some C →
      A.allowance = some alA → C.allowance = some alC →
      ∀ kind x y, alC.permits kind x y = true → alA.permits kind x y = true) ∧
    (∀ (f : Family) (a c : ℕ) (A C : HwProc), f.Reachable →
      TransGen f.Spawned a c → f a = some A → f c = some C →
      A.allowance ≠ none → C.allowance ≠ none) ∧
    ∀ (proc : ℕ) (args : ℕ → CreateArgs) (s s' : Race), s.Reachable proc args →
      s.revoke = .returned → ReflTransGen (Race.Step proc args) s s' →
      s'.installs = s.installs := by
  refine ⟨fun f a c A C alA alC hf hchain hA hC halA halC kind x y hp => ?_,
    fun f a c A C hf hchain hA hC hne hnone => ?_, fun proc args s s' => Race.Reachable.no_install⟩
  · obtain ⟨C', al', hC', hal', hwithin⟩ := hf.narrows hchain hA halA
    cases hC.symm.trans hC'
    cases halC.symm.trans hal'
    exact hwithin kind x y hp
  · obtain ⟨alA, halA⟩ := Option.ne_none_iff_exists'.mp hne
    obtain ⟨C', al', hC', hal', -⟩ := hf.narrows hchain hA halA
    cases hC.symm.trans hC'
    rw [hnone] at hal'
    exact some_ne_none al' hal'.symm

/-- One window. -/
def demoArgs (w : HwWindow) : AllowanceArgs where
  mmio := some fun _ => w
  mmioCount := 1
  irq := none
  irqCount := 0
  dmaMax := 0
  pci := none
  pciCount := 0

def demoDriver (w : HwWindow) : Allowance where
  mmio := copyFirst ⟨0, 0⟩ 1 fun _ => w
  mmioCount := 1
  irq := copyFirst 0 0 fun _ => 0
  irqCount := 0
  dmaMax := 0
  pci := copyFirst 0 0 fun _ => 0
  pciCount := 0
  revoked := false

/-- A page below the end of the addresses, and a part of it. -/
def demoPage : HwWindow := ⟨0xFFFFFFFFFFFFE000, 0x1000⟩

@[inherit_doc demoPage]
def demoPart : HwWindow := ⟨0xFFFFFFFFFFFFE000, 0x100⟩

/-- A broad Proc, its driver, a copy of the driver, and what the copy spawned for part of the page. -/
def demoFamily (al : Allowance) : Family :=
  update (update (update (fun p => if p = 0 then some ⟨none, none⟩ else none)
    1 (some ⟨some 0, some (demoDriver demoPage)⟩)) 2 (some ⟨some 1, some al⟩))
    3 (some ⟨some 2, some (demoDriver demoPart)⟩)

theorem demoFamily_reachable {al : Allowance}
    (h : allowanceCloneInto (some (demoDriver demoPage)) false = some (some al))
    (hgate : allowanceConferWithinParent (some al) (demoArgs demoPart) = true) :
    (demoFamily al).Reachable := by
  refine ⟨fun p => if p = 0 then some ⟨none, none⟩ else none, fun p P hP => ?_,
    ((ReflTransGen.single (.confer _ 0 1 false ⟨none, none⟩ (demoArgs demoPage) _
      rfl rfl (by decide) rfl)).tail (.rfork _ 1 2 false _ (some al) rfl rfl h)).tail
        (.confer _ 2 3 false ⟨some 1, some al⟩ (demoArgs demoPart) _ rfl rfl hgate rfl)⟩
  dsimp only at hP
  split at hP
  · rw [← Option.some.inj hP]
  · cases hP

/-- Sixteen bytes of the part, and a handle for them. -/
def demoCreate (_ : ℕ) : CreateArgs := ⟨.mmio, 0xFFFFFFFFFFFFE010, 0x10, ⟨.mmio, 1, some 3⟩⟩

def demoStart : Race :=
  .init (demoDriver demoPart) ((Handles.init fun _ => false).handleTableAlloc 3)

/-- One create installs before the revoke, one locks after it. -/
theorem demoRace : ∃ s s' : Race, s.Reachable 3 demoCreate ∧ s.revoke = .returned ∧
    ReflTransGen (Race.Step 3 demoCreate) s s' ∧
      s.installs = [(0, 0)] ∧ s'.creates 1 = .returned (-1) := by
  have hfirst : ReflTransGen (Race.Step 3 demoCreate) demoStart _ :=
    (((((ReflTransGen.single (.gate _ 0 rfl)).tail (.make _ 0 true (by decide))).tail
      (.lock _ 0 rfl rfl)).tail (.recheck _ 0 rfl)).tail (.install _ 0 rfl)).tail
        (.unlock _ 0 0 (by decide +kernel))
  have hrevoke := ((((hfirst.tail (.gate _ 1 rfl)).tail (.make _ 1 true (by decide))).tail
    (.revokeLock _ rfl rfl)).tail (.revokeStore _ rfl)).tail (.revokeUnlock _ rfl)
  exact ⟨_, _, ⟨_, _, hrevoke⟩, rfl, ((ReflTransGen.single (.lock _ 1 rfl rfl)).tail
    (.recheck _ 1 rfl)).tail (.unlock _ 1 (-1) rfl), by decide +kernel, rfl⟩

/-- From the page down to its part by a copy and a confer, and the race of the two creates. -/
theorem hardware_authority_narrows_driver :
    (∃ al, allowanceCloneInto (some (demoDriver demoPage)) false = some (some al) ∧
      allowanceConferWithinParent (some al) (demoArgs demoPart) = true ∧
      (demoDriver demoPart).permits .mmio 0xFFFFFFFFFFFFE010 0x10 = true ∧
      (demoDriver demoPage).permits .mmio 0xFFFFFFFFFFFFE010 0x10 = true) ∧
    ∃ s s' : Race, s.Reachable 3 demoCreate ∧ s.revoke = .returned ∧
      ReflTransGen (Race.Step 3 demoCreate) s s' ∧ s'.creates 1 = .returned (-1) ∧
        s.installs = [(0, 0)] ∧ s'.installs = [(0, 0)] := by
  obtain ⟨s, s', hs, hret, hrun, hone, htwo⟩ := demoRace
  refine ⟨⟨_, rfl, by decide, by decide, ?_⟩, s, s', hs, hret, hrun, htwo, hone, ?_⟩
  · exact hardware_authority_narrows.1 _ 1 3 _ _ (demoDriver demoPage) (demoDriver demoPart)
      (demoFamily_reachable rfl (by decide)) (.tail (.single ⟨_, rfl, rfl⟩) ⟨_, rfl, rfl⟩)
      rfl rfl rfl rfl .mmio _ _ (by decide)
  · exact (hardware_authority_narrows.2.2 3 demoCreate s s' hs hret hrun).trans hone

end Thylacine
