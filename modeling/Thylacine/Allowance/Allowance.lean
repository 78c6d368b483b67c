import Thylacine.Lib.Word
import Mathlib.Data.List.Basic

/-!
# Hardware Allowances

`kernel/allowance.c`: the set of hardware resources that a driver may make handles for. A Proc
without an allowance is broad. Windows are given by a base and a size in 64 bits; the gate tests
for wrap-around before it adds.

## Main results

* `HwWindow.holds_iff`: a window is an interval of numbers.
* `allowanceCloneInto_within`, `procConferAllowance_within`: what a narrowed Proc hands down, as a
  copy or by a confer, is within its own set.
-/

namespace Thylacine

open List

/-- `ALLOWANCE_MMIO_MAX`, `ALLOWANCE_IRQ_MAX` and `ALLOWANCE_PCI_MAX`. -/
def allowanceMmioMax : ℕ := 8
def allowanceIrqMax : ℕ := 8
def allowancePciMax : ℕ := 8

/-- `struct hw_window`: the addresses from `base` up to `base + size`. -/
structure HwWindow where
  base : UInt64
  size : UInt64
  deriving DecidableEq

/-- `enum hw_res_kind`. -/
inductive HwResKind where
  | mmio
  | irq
  | dma
  | pci
  deriving DecidableEq

/-- `struct Allowance`, without its lock. -/
structure Allowance where
  mmio : ℕ → HwWindow
  mmioCount : ℕ
  irq : ℕ → UInt32
  irqCount : ℕ
  dmaMax : UInt64
  pci : ℕ → UInt32
  pciCount : ℕ
  revoked : Bool

/-- What a confer is asked for. An array may be missing. -/
structure AllowanceArgs where
  mmio : Option (ℕ → HwWindow)
  mmioCount : ℕ
  irq : Option (ℕ → UInt32)
  irqCount : ℕ
  dmaMax : UInt64
  pci : Option (ℕ → UInt32)
  pciCount : ℕ

/-! ### The gate -/

/-- Does the window hold `[base, base + size)`? Not if that is empty or wraps around. -/
def HwWindow.holds (w : HwWindow) (base size : UInt64) : Bool :=
  if w.size = 0 then false
  else if w.base > ~~~0 - w.size then false
  else decide (base ≥ w.base) && decide (base + size ≤ w.base + w.size)

/-- What the conferred set permits, revoked or not. -/
def Allowance.permits (al : Allowance) (kind : HwResKind) (a b : UInt64) : Bool :=
  match kind with
  | .mmio =>
    if b = 0 then false
    else if a > ~~~0 - b then false
    else (range (min al.mmioCount allowanceMmioMax)).any fun i => (al.mmio i).holds a b
  | .irq => (range (min al.irqCount allowanceIrqMax)).any fun i => al.irq i = a.toUInt32
  | .dma => decide (a > 0) && decide (a ≤ al.dmaMax)
  | .pci => (range (min al.pciCount allowancePciMax)).any fun i => al.pci i = a.toUInt32

/-- `allowance_permits`. No allowance is broad. -/
def allowancePermits (al : Option Allowance) (kind : HwResKind) (a b : UInt64) : Bool :=
  match al with
  | none => true
  | some al => if al.revoked then false else al.permits kind a b

/-! ### Handing down -/

/-- The counts are in range and no array is missing. -/
def AllowanceArgs.wellFormed (d : AllowanceArgs) : Bool :=
  if d.mmioCount > allowanceMmioMax then false
  else if d.irqCount > allowanceIrqMax then false
  else if d.pciCount > allowancePciMax then false
  else if d.mmioCount > 0 && d.mmio.isNone then false
  else if d.irqCount > 0 && d.irq.isNone then false
  else if d.pciCount > 0 && d.pci.isNone then false
  else true

/-- The first `n` elements of an array, in a zeroed one. -/
def copyFirst {α : Type} (zero : α) (n : ℕ) (src : ℕ → α) : ℕ → α :=
  fun i => if i < n then src i else zero

theorem copyFirst_of_lt {α : Type} {zero : α} {n i : ℕ} {src : ℕ → α} (h : i < n) :
    copyFirst zero n src i = src i := if_pos h

/-- `proc_confer_allowance`: the allowance it installs. -/
def procConferAllowance (d : AllowanceArgs) (oom : Bool) : Option Allowance :=
  if !d.wellFormed then none
  else if oom then none
  else some
    { mmio := copyFirst ⟨0, 0⟩ d.mmioCount (d.mmio.getD fun _ => ⟨0, 0⟩)
      mmioCount := d.mmioCount
      irq := copyFirst 0 d.irqCount (d.irq.getD fun _ => 0)
      irqCount := d.irqCount
      dmaMax := d.dmaMax
      pci := copyFirst 0 d.pciCount (d.pci.getD fun _ => 0)
      pciCount := d.pciCount
      revoked := false }

/-- `allowance_confer_within_parent`. -/
def allowanceConferWithinParent (parent : Option Allowance) (d : AllowanceArgs) : Bool :=
  if !d.wellFormed then false
  else
    ((range d.mmioCount).all fun i =>
      let w := d.mmio.getD (fun _ => ⟨0, 0⟩) i
      w.size = 0 || allowancePermits parent .mmio w.base w.size) &&
    ((range d.irqCount).all fun i =>
      allowancePermits parent .irq (d.irq.getD (fun _ => 0) i).toUInt64 0) &&
    ((range d.pciCount).all fun i =>
      allowancePermits parent .pci (d.pci.getD (fun _ => 0) i).toUInt64 0) &&
    !(decide (d.dmaMax > 0) && !allowancePermits parent .dma d.dmaMax 0)

/-- `allowance_clone_into`: the child's allowance, given memory. -/
def allowanceCloneInto (parent : Option Allowance) (oom : Bool) : Option (Option Allowance) :=
  match parent with
  | none => some none
  | some src =>
    if oom then none
    else
      let mmioCount := min allowanceMmioMax src.mmioCount
      let irqCount := min allowanceIrqMax src.irqCount
      let pciCount := min allowancePciMax src.pciCount
      some (some
        { mmio := copyFirst ⟨0, 0⟩ mmioCount src.mmio
          mmioCount
          irq := copyFirst 0 irqCount src.irq
          irqCount
          dmaMax := src.dmaMax
          pci := copyFirst 0 pciCount src.pci
          pciCount
          revoked := src.revoked })

/-- `proc_revoke_allowance`, on the flag. -/
def Allowance.revoke (al : Allowance) : Allowance := { al with revoked := true }

/-! ### Containment -/

/-- What `al` permits, `al'` permits. -/
def Allowance.Within (al al' : Allowance) : Prop :=
  ∀ kind a b, al.permits kind a b = true → al'.permits kind a b = true

variable {al : Allowance} {a b base size : UInt64}

theorem Allowance.Within.trans {al' al'' : Allowance} (h : al.Within al')
    (h' : al'.Within al'') : al.Within al'' := fun kind a b hp => h' kind a b (h kind a b hp)

/-- `base > ~0 - size`: the range ends past the last address. -/
theorem gt_not_zero_sub_iff : base > ~~~0 - size ↔ 2 ^ 64 ≤ base.toNat + size.toNat := by
  have hs := size.toNat_lt
  have hmax : (~~~0 : UInt64).toNat = 2 ^ 64 - 1 := by decide
  rw [gt_iff_lt, UInt64.lt_iff_toNat_lt, UInt64.toNat_sub]
  omega

theorem toNat_add_of_lt (h : base.toNat + size.toNat < 2 ^ 64) :
    (base + size).toNat = base.toNat + size.toNat := by
  exact Nat.mod_eq_of_lt h

/-- A window that does not wrap is an interval. -/
theorem HwWindow.holds_iff {w : HwWindow} (h : base.toNat + size.toNat < 2 ^ 64) :
    w.holds base size = true ↔ w.size ≠ 0 ∧ w.base.toNat + w.size.toNat < 2 ^ 64 ∧
      w.base.toNat ≤ base.toNat ∧
      base.toNat + size.toNat ≤ w.base.toNat + w.size.toNat := by
  rw [holds]
  split
  · next h0 => simp [h0]
  split
  · next hw =>
      rw [gt_not_zero_sub_iff] at hw
      refine iff_of_false Bool.false_ne_true ?_
      rintro ⟨-, hlt, -⟩
      omega
  · next h0 hw =>
      rw [gt_not_zero_sub_iff, Nat.not_le] at hw
      rw [Bool.and_eq_true, decide_eq_true_iff, decide_eq_true_iff, ge_iff_le,
        UInt64.le_iff_toNat_le, UInt64.le_iff_toNat_le, toNat_add_of_lt h, toNat_add_of_lt hw]
      exact ⟨fun hin => ⟨h0, hw, hin⟩, fun hin => hin.2.2⟩

theorem Allowance.permits_mmio_iff : al.permits .mmio base size = true ↔
      size ≠ 0 ∧ base.toNat + size.toNat < 2 ^ 64 ∧
      ∃ i < min al.mmioCount allowanceMmioMax, (al.mmio i).holds base size = true := by
  rw [permits]
  split
  · next h0 => simp [h0]
  split
  · next hover =>
      rw [gt_not_zero_sub_iff] at hover
      refine iff_of_false Bool.false_ne_true ?_
      rintro ⟨-, hlt, -⟩
      omega
  · next h0 hover =>
      rw [gt_not_zero_sub_iff, Nat.not_le] at hover
      rw [any_eq_true]
      simp only [mem_range]
      exact ⟨fun h => ⟨h0, hover, h⟩, fun h => h.2.2⟩

theorem Allowance.permits_irq_iff : al.permits .irq a b = true ↔
      ∃ i < min al.irqCount allowanceIrqMax, al.irq i = a.toUInt32 := by
  simp only [permits, any_eq_true, mem_range, decide_eq_true_iff]

theorem Allowance.permits_pci_iff : al.permits .pci a b = true ↔
      ∃ i < min al.pciCount allowancePciMax, al.pci i = a.toUInt32 := by
  simp only [permits, any_eq_true, mem_range, decide_eq_true_iff]

/-- What is in a window of a set **is in the set**. -/
theorem Allowance.permits_mmio_of_window {w : HwWindow}
    (hw : al.permits .mmio w.base w.size = true) (h0 : size ≠ 0)
    (hlt : base.toNat + size.toNat < 2 ^ 64) (h : w.holds base size = true) :
    al.permits .mmio base size = true := by
  obtain ⟨-, hwlt, i, hi, hold⟩ := permits_mmio_iff.mp hw
  obtain ⟨-, -, hlo, hhi⟩ := (HwWindow.holds_iff hlt).mp h
  obtain ⟨hne, hplt, hplo, hphi⟩ := (HwWindow.holds_iff hwlt).mp hold
  refine permits_mmio_iff.mpr ⟨h0, hlt, i, hi, (HwWindow.holds_iff hlt).mpr ?_⟩
  exact ⟨hne, hplt, by omega, by omega⟩

/-- What a narrowed set permits, whatever its flag. -/
theorem permits_of_allowancePermits {kind : HwResKind}
    (h : allowancePermits (some al) kind a b = true) : al.permits kind a b = true := by
  rw [allowancePermits] at h
  split at h
  · exact absurd h Bool.false_ne_true
  · exact h

/-- A **copy** permits what the original does. -/
theorem allowanceCloneInto_within {src : Allowance} {oom : Bool} {al : Option Allowance}
    (h : allowanceCloneInto (some src) oom = some al) : ∃ dst, al = some dst ∧ dst.Within src := by
  rw [allowanceCloneInto] at h
  split at h
  · cases h
  cases h
  refine ⟨_, rfl, fun kind a b hp => ?_⟩
  cases kind with
  | mmio =>
    obtain ⟨h0, hlt, i, hi, hold⟩ := Allowance.permits_mmio_iff.mp hp
    dsimp only at hi hold
    rw [copyFirst_of_lt (by omega)] at hold
    exact Allowance.permits_mmio_iff.mpr ⟨h0, hlt, i, by omega, hold⟩
  | dma => exact hp
  | irq =>
    obtain ⟨i, hi, heq⟩ := Allowance.permits_irq_iff.mp hp
    dsimp only at hi heq
    rw [copyFirst_of_lt (by omega)] at heq
    exact Allowance.permits_irq_iff.mpr ⟨i, by omega, heq⟩
  | pci =>
    obtain ⟨i, hi, heq⟩ := Allowance.permits_pci_iff.mp hp
    dsimp only at hi heq
    rw [copyFirst_of_lt (by omega)] at heq
    exact Allowance.permits_pci_iff.mpr ⟨i, by omega, heq⟩

/-- What passed the **confer gate** is within the parent's. -/
theorem procConferAllowance_within {parent : Allowance} {d : AllowanceArgs} {oom : Bool}
    (hgate : allowanceConferWithinParent (some parent) d = true)
    (h : procConferAllowance d oom = some al) : al.Within parent := by
  rw [procConferAllowance] at h
  split at h
  · cases h
  split at h
  · cases h
  next hwf _ =>
  rw [allowanceConferWithinParent, if_neg hwf] at hgate
  obtain ⟨⟨⟨hmmio, hirq⟩, hpci⟩, hdma⟩ := by simpa only [Bool.and_eq_true] using hgate
  cases h
  intro kind a b hp
  cases kind with
  | mmio =>
    obtain ⟨h0, hlt, i, hi, hold⟩ := Allowance.permits_mmio_iff.mp hp
    dsimp only at hi hold
    have hcount : i < d.mmioCount := by omega
    rw [copyFirst_of_lt hcount] at hold
    have hw := all_eq_true.mp hmmio i (mem_range.mpr hcount)
    rw [Bool.or_eq_true, decide_eq_true_iff] at hw
    have hne := ((HwWindow.holds_iff hlt).mp hold).1
    exact Allowance.permits_mmio_of_window
      (permits_of_allowancePermits (hw.resolve_left hne)) h0 hlt hold
  | irq =>
    obtain ⟨i, hi, heq⟩ := Allowance.permits_irq_iff.mp hp
    dsimp only at hi heq
    have hcount : i < d.irqCount := by omega
    rw [copyFirst_of_lt hcount] at heq
    have hw := permits_of_allowancePermits (all_eq_true.mp hirq i (mem_range.mpr hcount))
    rw [Allowance.permits_irq_iff, UInt32.toUInt32_toUInt64, heq] at hw
    exact Allowance.permits_irq_iff.mpr hw
  | pci =>
    obtain ⟨i, hi, heq⟩ := Allowance.permits_pci_iff.mp hp
    dsimp only at hi heq
    have hcount : i < d.pciCount := by omega
    rw [copyFirst_of_lt hcount] at heq
    have hw := permits_of_allowancePermits (all_eq_true.mp hpci i (mem_range.mpr hcount))
    rw [Allowance.permits_pci_iff, UInt32.toUInt32_toUInt64, heq] at hw
    exact Allowance.permits_pci_iff.mpr hw
  | dma =>
    rw [Allowance.permits, Bool.and_eq_true, decide_eq_true_iff, decide_eq_true_iff] at hp
    obtain ⟨hpos, hle⟩ := hp
    have hmax : d.dmaMax > 0 := lt_of_lt_of_le hpos hle
    have hw : allowancePermits (some parent) .dma d.dmaMax 0 = true := by simpa [hmax] using hdma
    have hw := permits_of_allowancePermits hw
    rw [Allowance.permits, Bool.and_eq_true, decide_eq_true_iff, decide_eq_true_iff] at hw ⊢
    exact ⟨hpos, le_trans hle hw.2⟩

end Thylacine
