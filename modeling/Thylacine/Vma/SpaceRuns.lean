import Thylacine.Vma.ExtendSpec

/-!
# Runs of an Address Space

Every sequence of the operations of `kernel/vma.c` on one address space, with every outcome of the
slab and of the charge. `Allowed` is what the callers of an operation promise: they free, insert and
remove mappings that are in use and not, or are, in the list, and they map Burrows that somebody
holds. In between, the other holders of the Burrows come and go.

## Main results

* `addrspace_list_invariant`: the list stays sorted and linked, in runs whose replaces are `Roomy`.
* `replace_free_range_at_cap`: a replace of a free range returns from its detach before the headroom
  is looked at, and the insert after it may be refused, which is an extinction.
-/

namespace Thylacine

open DoublyLinked IntervalMap List Word

/-- The operations; `elsewhere` changes the Burrows. -/
inductive SpaceOp where
  | alloc (pick : Option VmaRef) (vaddrStart vaddrEnd : UInt64) (prot : UInt32)
      (burrow : Option BurrowRef) (burrowOffset : UInt64)
  | allocGuard (pick : Option VmaRef) (vaddrStart vaddrEnd : UInt64)
  | setFlags (v : VmaRef) (flags : UInt32)
  | free (v : VmaRef)
  | insert (exempt : Bool) (v : VmaRef)
  | remove (v : VmaRef)
  | detach (exempt : Bool) (pick : Option VmaRef) (vaddr length : UInt64) (extraVmas : UInt32)
  | replace (exempt : Bool) (pick pickPiece : Option VmaRef) (vaddr length : UInt64)
      (nb : Option BurrowRef) (prot : UInt32) (nbOffset : UInt64)
  | reprotect (exempt : Bool) (pickL pickR : Option VmaRef) (vaddr length : UInt64) (prot : UInt32)
      (sealed : Bool)
  | extend (growsPrev growsNext : Bool) (vaddr length : UInt64) (prot : UInt32)
      (winLo winHi : UInt64)
  | drain
  | elsewhere (burrows : BurrowRef → Burrow)

/-- The caller is exempt from the cap. -/
def SpaceOp.exempt : SpaceOp → Bool
  | .insert exempt _ => exempt
  | .detach exempt _ _ _ _ => exempt
  | .replace exempt _ _ _ _ _ _ _ => exempt
  | .reprotect exempt _ _ _ _ _ _ => exempt
  | _ => false

namespace AddrSpace

/-- One operation; `none` is an extinction. -/
def step (s : AddrSpace) : SpaceOp → Option AddrSpace
  | .alloc pick vaddrStart vaddrEnd prot burrow burrowOffset =>
    (s.vmaAlloc pick vaddrStart vaddrEnd prot burrow burrowOffset).map Prod.fst
  | .allocGuard pick vaddrStart vaddrEnd => some (s.vmaAllocGuard pick vaddrStart vaddrEnd).1
  | .setFlags v flags => some (s.setVma v { s.vma v with flags := flags })
  | .free v => (s.vmaFree v).map Prod.fst
  | .insert exempt v => (s.vmaInsertIn exempt v).map Prod.fst
  | .remove v => s.vmaRemoveIn v
  | .detach exempt pick vaddr length extraVmas =>
    (s.vmaDetachRangeIn exempt pick vaddr length extraVmas).map Prod.fst
  | .replace exempt pick pickPiece vaddr length nb prot nbOffset =>
    (s.vmaReplaceRangeIn exempt pick pickPiece vaddr length nb prot nbOffset).map Prod.fst
  | .reprotect exempt pickL pickR vaddr length prot sealed =>
    (s.vmaReprotectRangeIn exempt pickL pickR vaddr length prot sealed).map Prod.fst
  | .extend growsPrev growsNext vaddr length prot winLo winHi =>
    (s.vmaExtendAnonIn growsPrev growsNext vaddr length prot winLo winHi).map Prod.fst
  | .drain => s.vmaDrainIn.map Prod.fst
  | .elsewhere burrows => some { s with burrows := burrows }

/-- A caller may map the Burrow like this. -/
structure Mappable (s : AddrSpace) (burrow : Option BurrowRef) (prot : UInt32)
    (burrowOffset : UInt64) : Prop where
  alive : ∀ b, burrow = some b → s.Alive b
  prot : Within prot 7
  offset : Aligned burrowOffset

/-- The mapping is in use, and not linked. -/
def Idle (s : AddrSpace) (v : VmaRef) : Prop := v ∈ s.live ∧ v ∉ s.list

/-- What the callers promise. -/
def Allowed (s : AddrSpace) : SpaceOp → Prop
  | .alloc _ _ _ prot burrow burrowOffset => s.Mappable burrow prot burrowOffset
  | .allocGuard _ _ _ => True
  | .setFlags v flags => s.Idle v ∧ Within (s.vma v).prot (vmaProtMax flags)
  | .free v => s.Idle v
  | .insert _ v => s.Idle v
  | .remove v => v ∈ s.list
  | .detach _ _ _ _ extraVmas => extraVmas.toNat ≤ vmaSlots
  | .replace _ _ _ _ _ nb prot nbOffset => s.Mappable nb prot nbOffset
  | .reprotect _ _ _ _ _ _ _ => True
  | .extend _ _ _ _ _ _ _ => True
  | .drain => True
  | .elsewhere burrows => ∀ b, (s.users b).card ≤ (burrows b).mappingCount ∧
      (0 < (s.users b).card → Mapping.Later (s.burrows b) (burrows b))

/-- A replace of a free range has room for its mapping. -/
def Roomy (s : AddrSpace) : SpaceOp → Prop
  | .replace exempt _ _ vaddr length _ _ _ => s.ReplaceRoom exempt vaddr length
  | _ => True

variable {s s' s₀ : AddrSpace} {xs : List VmaRef} {v : VmaRef} {op : SpaceOp}

/-! ### One step -/

/-- The step ends with a good list, longer only below the cap. -/
def StepsWell (s : AddrSpace) (op : SpaceOp) : Prop :=
  ∃ s' xs', s.step op = some s' ∧ s'.Ok xs' ∧
    (op.exempt = false → xs'.length ≤ max s.list.length procVmaMax.toNat)

theorem Ok.stepsWell_same (h : s.Ok xs) (hok : s'.Ok xs) (hstep : s.step op = some s') :
    s.StepsWell op :=
  ⟨s', xs, hstep, hok, fun _ => h.list_eq ▸ le_max_left ..⟩

variable {en off st vaddr length : UInt64} {prot : UInt32} {n : ℕ} {exempt : Bool}
  {ops : List SpaceOp} {b : BurrowRef}

theorem Ok.step_alloc (h : s.Ok xs) {pick : Option VmaRef}
    {burrow : Option BurrowRef} (hm : s.Mappable burrow prot off) :
    s.StepsWell (.alloc pick st en prot burrow off) := by
  rcases s.vmaAlloc_spec pick st en prot burrow off hm.alive with
    hnone | ⟨s', v, b, hsome, -, -, hadm, hfresh⟩
  · exact h.stepsWell_same h (congrArg (Option.map Prod.fst) hnone)
  · exact h.stepsWell_same (h.fresh hfresh (ok_of_admits hadm hm.prot hm.offset))
      (congrArg (Option.map Prod.fst) hsome)

theorem guardVma_ok (burrows : BurrowRef → Burrow)
    (h : st < en ∧ Aligned st ∧ Aligned en) : (guardVma st en).mapping.Ok burrows where
  nonempty := h.1
  alignedLo := h.2.1
  alignedHi := h.2.2
  prot := show ProtOk 0 from ⟨by decide, by decide⟩
  ceiling := UInt32.zero_and
  guard := fun _ => rfl
  backed := nofun

section

variable (h : s.Ok xs)
include h

theorem Ok.step_allocGuard (pick : Option VmaRef) (st en : UInt64) :
    s.StepsWell (.allocGuard pick st en) := by
  rcases s.vmaAllocGuard_spec pick st en with hnone | ⟨s', v, hsome, -, hrange, hfresh⟩
  · exact h.stepsWell_same h (congrArg (some ∘ Prod.fst) hnone)
  · exact h.stepsWell_same (h.fresh hfresh (guardVma_ok _ hrange))
      (congrArg (some ∘ Prod.fst) hsome)

/-- New flags, for a mapping that is not linked. -/
theorem Ok.step_setFlags {flags : UInt32} (hv : v ∈ s.live) (hnot : v ∉ xs)
    (hceil : Within (s.vma v).prot (vmaProtMax flags)) : s.StepsWell (.setFlags v flags) := by
  obtain ⟨hne, hlo, hhi, hprot, -, hguard, hback⟩ := h.good v hv
  have hgood : Mapping.Ok s.burrows { s.mapping v with flags := flags } :=
    ⟨hne, hlo, hhi, hprot, hceil, hguard, hback⟩
  exact h.stepsWell_same (h.setVma_idle (m := { s.vma v with flags := flags }) hnot rfl hgood) rfl

theorem Ok.step_free (hv : v ∈ s.live) (hnot : v ∉ xs) : s.StepsWell (.free v) := by
  obtain ⟨s', dead, hfree, hfreed, -⟩ := h.vmaFree hv hnot
  exact h.stepsWell_same (h.freed hfreed hv hnot) (congrArg (Option.map Prod.fst) hfree)

theorem Ok.step_insert (exempt : Bool) (hv : v ∈ s.live) (hnot : v ∉ xs) :
    s.StepsWell (.insert exempt v) := by
  by_cases hc : s.Clear xs (s.vma v) ∧ s.Room exempt
  · obtain ⟨hclear, hroom⟩ := hc
    obtain ⟨ys, zs, rfl, hpl⟩ := h.exists_place hclear
    obtain ⟨s', hins, hok, -⟩ := h.vmaInsertIn hv hnot hpl hroom
    refine ⟨s', _, congrArg (Option.map Prod.fst) hins, hok, fun hex => ?_⟩
    have hex : exempt = false := hex
    rw [h.room_iff, hex, or_iff_right Bool.false_ne_true] at hroom
    refine le_trans ?_ (le_max_right ..)
    simp only [length_append, length_cons] at hroom ⊢
    omega
  · obtain ⟨rc, hins, -⟩ := h.vmaInsertIn_refused hv hnot hc
    exact h.stepsWell_same h (congrArg (Option.map Prod.fst) hins)

theorem Ok.step_remove (hv : v ∈ xs) : s.StepsWell (.remove v) := by
  obtain ⟨ys, zs, rfl⟩ := append_of_mem hv
  obtain ⟨s', hrem, hok, -⟩ := h.vmaRemoveIn
  refine ⟨s', _, hrem, hok, fun _ => ?_⟩
  rw [h.list_eq]
  refine le_trans ?_ (le_max_left ..)
  simp only [length_append, length_cons]
  omega

theorem Ok.step_detach (exempt : Bool) (pick : Option VmaRef) (vaddr length : UInt64)
    {extra : UInt32} (hextra : extra.toNat ≤ vmaSlots) :
    s.StepsWell (.detach exempt pick vaddr length extra) := by
  rcases h.vmaDetachRangeIn exempt pick vaddr length extra with
    ⟨-, hmany⟩ | ⟨rc, -, heq⟩ | ⟨s', dead, xs', heq, -, hd, hlen⟩
  · exact absurd hextra (not_le.mpr hmany)
  · exact h.stepsWell_same h (congrArg (Option.map Prod.fst) heq)
  · refine ⟨s', xs', congrArg (Option.map Prod.fst) heq, hd.ok, fun hex => ?_⟩
    rcases hlen with ⟨-, rfl⟩ | hlen
    · rw [h.list_eq]
      exact le_max_left ..
    · exact (Nat.le_of_add_right_le (hlen hextra hex)).trans (le_max_right ..)

theorem Ok.step_replace (pick pickPiece : Option VmaRef) {nb : Option BurrowRef}
    (hm : s.Mappable nb prot off) (hroom : s.ReplaceRoom exempt vaddr length) :
    s.StepsWell (.replace exempt pick pickPiece vaddr length nb prot off) := by
  rcases h.vmaReplaceRangeIn exempt pick pickPiece vaddr length hm.alive hm.prot hm.offset with
    ⟨-, hno⟩ | ⟨s', rc, dead, heq, -, hok, -⟩ | ⟨s', dead, xs', b, -, heq, hr, hlen⟩
  · exact absurd hroom hno
  · exact h.stepsWell_same hok (congrArg (Option.map Prod.fst) heq)
  · exact ⟨s', xs', congrArg (Option.map Prod.fst) heq, hr.ok,
      fun hex => (hlen hex).trans (le_max_right ..)⟩

theorem Ok.step_reprotect (exempt : Bool) (pickL pickR : Option VmaRef) (vaddr length : UInt64)
    (prot : UInt32) (sealed : Bool) :
    s.StepsWell (.reprotect exempt pickL pickR vaddr length prot sealed) := by
  obtain ⟨s', rc, heq, ⟨-, href⟩ | ⟨-, -, xs', hr, -, hlen⟩⟩ :=
    h.vmaReprotectRangeIn exempt pickL pickR vaddr length prot sealed
  · exact h.stepsWell_same href.ok (congrArg (Option.map Prod.fst) heq)
  · exact ⟨s', xs', congrArg (Option.map Prod.fst) heq, hr.ok, fun hex => h.list_eq ▸ hlen hex⟩

theorem Ok.step_extend (growsPrev growsNext : Bool) (vaddr length : UInt64) (prot : UInt32)
    (winLo winHi : UInt64) :
    s.StepsWell (.extend growsPrev growsNext vaddr length prot winLo winHi) := by
  rcases h.vmaExtendAnonIn growsPrev growsNext vaddr length prot winLo winHi with
    heq | ⟨s', xs', v, c, o, heq, -, -, hdone⟩
  · exact h.stepsWell_same h (congrArg (Option.map Prod.fst) heq)
  · refine ⟨s', xs', congrArg (Option.map Prod.fst) heq, hdone.ok, fun _ => ?_⟩
    rw [h.list_eq]
    exact hdone.shorter.trans (le_max_left ..)

theorem Ok.step_drain : s.StepsWell .drain := by
  obtain ⟨s', dead, heq, hok, -⟩ := h.vmaDrainIn
  exact ⟨s', [], congrArg (Option.map Prod.fst) heq, hok, fun _ => Nat.zero_le _⟩

theorem Ok.step_elsewhere {burrows : BurrowRef → Burrow} (hb : s.Allowed (.elsewhere burrows)) :
    s.StepsWell (.elsewhere burrows) := by
  refine h.stepsWell_same (?_ : Ok { s with burrows := burrows } xs) rfl
  refine h.of_sameList ⟨rfl, rfl, fun _ _ => ⟨rfl, rfl, rfl⟩⟩ h.live h.idle (fun v hv => ?_)
    fun b => (hb b).1
  refine (h.good v hv).later fun b o hback => (hb b).2 (Finset.card_pos.mpr ⟨v, ?_⟩)
  obtain ⟨c, hc, heq⟩ := Option.map_eq_some_iff.mp hback
  rw [← (Prod.mk.inj heq).1]
  exact Finset.mem_filter.mpr ⟨hv, hc⟩

/-- **Every step** that is allowed and has room keeps the invariant. -/
theorem Ok.step (hop : s.Allowed op) (hroom : s.Roomy op) : s.StepsWell op := by
  have hlist := h.list_eq
  cases op with
  | alloc => exact h.step_alloc hop
  | allocGuard pick st en => exact h.step_allocGuard pick st en
  | setFlags => exact h.step_setFlags hop.1.1 (hlist ▸ hop.1.2) hop.2
  | free => exact h.step_free hop.1 (hlist ▸ hop.2)
  | insert exempt => exact h.step_insert exempt hop.1 (hlist ▸ hop.2)
  | remove => exact h.step_remove (hlist ▸ hop)
  | detach exempt pick vaddr length => exact h.step_detach exempt pick vaddr length hop
  | replace exempt pick pickPiece => exact h.step_replace pick pickPiece hop hroom
  | reprotect exempt pickL pickR vaddr length prot sealed =>
    exact h.step_reprotect exempt pickL pickR vaddr length prot sealed
  | extend growsPrev growsNext vaddr length prot winLo winHi =>
    exact h.step_extend growsPrev growsNext vaddr length prot winLo winHi
  | drain => exact h.step_drain
  | elsewhere => exact h.step_elsewhere hop

end

/-! ### Runs -/

/-- A run from `s₀` to `s`: every operation is allowed, has room, and ends. -/
inductive Run (s₀ : AddrSpace) : List SpaceOp → AddrSpace → Prop
  | nil : Run s₀ [] s₀
  | snoc {ops : List SpaceOp} {s s' : AddrSpace} {op : SpaceOp} : Run s₀ ops s → s.Allowed op →
      s.Roomy op → s.step op = some s' → Run s₀ (ops ++ [op]) s'

theorem Run.wellFormed (h : Run s₀ ops s) (h₀ : s₀.WellFormed) : s.WellFormed := by
  induction h with
  | nil => exact h₀
  | snoc _ hop hroom hstep ih =>
    obtain ⟨s', xs', hstep', hok, -⟩ := ih.step hop hroom
    cases hstep.symm.trans hstep'
    exact hok.wellFormed

/-- Without an exempt caller, the list stays within the cap. -/
theorem Run.length_le (h : Run s₀ ops s) (h₀ : s₀.WellFormed)
    (hcap : s₀.list.length ≤ procVmaMax.toNat) (hops : ∀ op ∈ ops, op.exempt = false) :
    s.list.length ≤ procVmaMax.toNat := by
  induction h with
  | nil => exact hcap
  | snoc hrun hop hroom hstep ih =>
    have hle := ih fun op hmem => hops op (by simp [hmem])
    obtain ⟨s', xs', hstep', hok, hlen⟩ := (hrun.wellFormed h₀).step hop hroom
    cases hstep.symm.trans hstep'
    rw [hok.list_eq]
    exact (hlen (hops _ (by simp))).trans (max_le hle le_rfl)

/-- An address space's list, as `vma.h` describes it. -/
structure ListInvariant (s : AddrSpace) : Prop where
  linked : DList.Holds ⟨s.vmas, s.list.getLast?, s.next, s.prev⟩ s.list
  ascending : s.list.Pairwise fun v w => (s.vma v).vaddrEnd ≤ (s.vma w).vaddrStart
  nonempty : ∀ v ∈ s.list, (s.vma v).vaddrStart < (s.vma v).vaddrEnd
  aligned : ∀ v ∈ s.list, Aligned (s.vma v).vaddrStart ∧ Aligned (s.vma v).vaddrEnd
  prot : ∀ v ∈ s.list, ProtOk (s.vma v).prot
  ceiling : ∀ v ∈ s.list, Within (s.vma v).prot (vmaProtMax (s.vma v).flags)
  inside : ∀ v ∈ s.list, ∀ b, (s.vma v).burrow = some b → (s.vma v).burrowOffset.toNat +
    ((s.vma v).vaddrEnd - (s.vma v).vaddrStart).toNat ≤ (s.burrows b).pageCount * pageBytes
  count : s.vmaCount.toNat = s.list.length

theorem WellFormed.listInvariant (h : s.WellFormed) : s.ListInvariant where
  linked := h.holds
  ascending := pairwise_map.mp h.sorted.apart
  nonempty := fun _ => h.start_lt_end
  aligned := fun _ => h.aligned
  prot := fun v hv => (h.good v (h.live v hv)).prot
  ceiling := fun v hv => (h.good v (h.live v hv)).ceiling
  inside := fun v hv b hb => ((h.good v (h.live v hv)).backed b (s.vma v).burrowOffset (by
    rw [mapping, Vma.mapping, hb]
    rfl)).2.1
  count := h.count

/-- **The list of an address space**, along every run whose replaces have room: it stays a sorted,
doubly linked list of good mappings with the right count, below the cap if no caller is exempt, and
no allowed operation with room is an extinction. -/
theorem addrspace_list_invariant (s₀ s : AddrSpace) (ops : List SpaceOp) (h₀ : s₀.WellFormed)
    (hrun : Run s₀ ops s) :
    s.ListInvariant ∧
      ((∀ op ∈ ops, op.exempt = false) → s₀.vmaCount ≤ procVmaMax → s.vmaCount ≤ procVmaMax) ∧
      ∀ op, s.Allowed op → s.Roomy op → s.step op ≠ none := by
  have h := hrun.wellFormed h₀
  refine ⟨h.listInvariant, fun hops hcap => ?_, fun op hop hroom => ?_⟩
  · rw [UInt32.le_iff_toNat_le, h₀.count] at hcap
    rw [UInt32.le_iff_toNat_le, h.count]
    exact hrun.length_le h₀ hcap hops
  · obtain ⟨s', xs', hstep, -⟩ := h.step hop hroom
    rw [hstep]
    nofun

/-! ### At the cap -/

/-- A space with `n` one-page guards from address 0. -/
structure Filled (n : ℕ) (s : AddrSpace) (xs : List VmaRef) : Prop where
  ok : s.Ok xs
  length : xs.length = n
  live : ∀ v ∈ s.live, v.val < n
  below : ∀ v ∈ xs, (s.vma v).vaddrEnd.toNat ≤ n * 4096
  pages : (s.burrows 7).pageCount = 4
  held : (s.burrows 7).handleCount = 1

/-- The address of page `n`. -/
def pageAt (n : ℕ) : UInt64 := UInt64.ofNat (n * 4096)

theorem pageAt_toNat (hn : n ≤ 65536) : (pageAt n).toNat = n * 4096 := by
  rw [pageAt, UInt64.toNat_ofNat']
  omega

theorem pageAt_range (hn : n < 65536) :
    pageAt n < pageAt (n + 1) ∧ Aligned (pageAt n) ∧ Aligned (pageAt (n + 1)) := by
  refine ⟨?_, ?_, ?_⟩
  · rw [UInt64.lt_iff_toNat_lt, pageAt_toNat hn.le, pageAt_toNat hn]
    omega
  · rw [aligned_iff, pageAt_toNat hn.le]
    omega
  · rw [aligned_iff, pageAt_toNat hn]
    omega

/-- One more guard. -/
theorem Filled.more (h : Filled n s xs) (hn : n < 65536) :
    ∃ op₁ op₂ s₁ s₂ ys, s.Allowed op₁ ∧ s.Roomy op₁ ∧ s.step op₁ = some s₁ ∧ s₁.Allowed op₂ ∧
      s₁.Roomy op₂ ∧ s₁.step op₂ = some s₂ ∧ op₁.exempt = false ∧ op₂.exempt = false ∧
      Filled (n + 1) s₂ ys := by
  have hslot : n < vmaSlots := hn.trans (by decide)
  obtain ⟨hlt, hal, hal'⟩ := pageAt_range hn
  have hnew : (⟨n, hslot⟩ : VmaRef) ∉ s.live := fun hmem => lt_irrefl n (h.live _ hmem)
  have halloc : (s.vmaAllocGuard (some ⟨n, hslot⟩) (pageAt n) (pageAt (n + 1))).2 =
      some ⟨n, hslot⟩ := by
    rw [vmaAllocGuard, Option.filter_some, if_pos (by simpa using hnew)]
    dsimp only
    rw [if_pos ⟨hlt, hal, hal'⟩]
  rcases s.vmaAllocGuard_spec (some ⟨n, hslot⟩) (pageAt n) (pageAt (n + 1)) with
    hnone | ⟨s₁, v, hsome, hpick, hrange, hfresh⟩
  · rw [hnone] at halloc
    cases halloc
  cases hpick
  have hok₁ := h.ok.fresh hfresh (guardVma_ok _ hrange)
  have hnot : (⟨n, hslot⟩ : VmaRef) ∉ xs := fun hmem => hnew (h.ok.live _ hmem)
  have hvma : ∀ v ∈ xs, s₁.vma v = s.vma v := fun v hv =>
    hfresh.vma_of_ne (h.ok.ne_of_fresh hfresh hv)
  -- the new guard goes behind all others
  have hpl : s₁.Place (s₁.vma ⟨n, hslot⟩) xs [] := by
    refine ⟨fun y hy => ?_, forall_mem_nil _⟩
    rw [hfresh.vma_self, hvma y hy]
    exact (h.below y hy).trans (pageAt_toNat hn.le).ge
  have hroom : s₁.Room false := by
    rw [hok₁.room_iff]
    exact .inr (h.length.trans_lt hn)
  rw [← append_nil xs] at hok₁ hnot
  obtain ⟨s₂, hins, hok₂, hre⟩ := hok₁.vmaInsertIn hfresh.mem_live hnot hpl hroom
  refine ⟨.allocGuard (some ⟨n, hslot⟩) (pageAt n) (pageAt (n + 1)), .insert false ⟨n, hslot⟩, s₁, s₂,
    xs ++ [⟨n, hslot⟩], trivial, trivial, congrArg (some ∘ Prod.fst) hsome, ?_, trivial,
    congrArg (Option.map Prod.fst) hins, rfl, rfl, ⟨hok₂, ?_, fun v hv => ?_, fun v hv => ?_, ?_, ?_⟩⟩
  · exact ⟨hfresh.mem_live, hok₁.list_eq ▸ hnot⟩
  · rw [length_append, h.length]
    rfl
  · rw [hre.live, hfresh.live] at hv
    rcases Finset.mem_insert.mp hv with rfl | hv
    · exact Nat.lt_succ_self n
    · exact (h.live v hv).trans (Nat.lt_succ_self n)
  · rw [hre.vma]
    rcases mem_append.mp hv with hv | hv
    · rw [hvma v hv]
      exact (h.below v hv).trans (by omega)
    · rw [mem_singleton.mp hv, hfresh.vma_self]
      exact (pageAt_toNat hn).le
  · rw [(hre.burrows 7).2.1, hfresh.burrows 7]
    exact h.pages
  · rw [(hre.burrows 7).2.2.2, hfresh.burrows 7]
    exact h.held

/-- Callers not exempt can fill an address space to the cap. -/
theorem exists_filled (hn : n ≤ 65536) :
    ∃ ops s xs, Run (init fun _ => heldBurrow) ops s ∧ (∀ op ∈ ops, op.exempt = false) ∧
      Filled n s xs := by
  induction n with
  | zero =>
    exact ⟨[], _, [], .nil, nofun, init_ok _, rfl, fun v hv => absurd hv (Finset.notMem_empty v),
      nofun, rfl, rfl⟩
  | succ n ih =>
    obtain ⟨ops, s, xs, hrun, hops, hfill⟩ := ih (Nat.le_of_succ_le hn)
    obtain ⟨op₁, op₂, s₁, s₂, ys, hop₁, hroom₁, hstep₁, hop₂, hroom₂, hstep₂, hex₁, hex₂, hfill'⟩ :=
      hfill.more hn
    refine ⟨ops ++ [op₁] ++ [op₂], s₂, ys, (hrun.snoc hop₁ hroom₁ hstep₁).snoc hop₂ hroom₂ hstep₂,
      ?_, hfill'⟩
    exact forall_mem_append.mpr ⟨forall_mem_append.mpr ⟨hops, forall_mem_singleton.mpr hex₁⟩,
      forall_mem_singleton.mpr hex₂⟩

/-- The invariant, in an address space that is full. -/
theorem addrspace_list_invariant_full :
    ∃ ops s, Run (init fun _ => heldBurrow) ops s ∧ s.ListInvariant ∧ s.list.length = 65536 ∧
      s.vmaCount ≤ procVmaMax := by
  obtain ⟨ops, s, xs, hrun, hops, hfill⟩ := exists_filled le_rfl
  obtain ⟨hinv, hcap, -⟩ := addrspace_list_invariant (init fun _ => heldBurrow) s ops
    (init_ok _).wellFormed hrun
  refine ⟨ops, s, hrun, hinv, ?_, hcap hops (by decide)⟩
  rw [hfill.ok.list_eq, hfill.length]

/-- With room and the checks passed, `vma_alloc` makes the mapping. -/
theorem vmaAlloc_snd (hv : v ∉ s.live)
    (hadm : vmaAdmits (s.burrows b) st en prot off) (hb : s.Alive b) :
    (s.vmaAlloc (some v) st en prot (some b) off).map Prod.snd = some (some v) := by
  have hpick : (some v).filter (· ∉ s.live) = some v := Option.filter_eq_some_iff.mpr
    ⟨rfl, decide_eq_true hv⟩
  unfold vmaAlloc
  rw [hpick]
  dsimp only
  rw [if_pos hadm, burrowAcquireMapping_eq (s := s.newVma v _) hb]
  rfl

/-- **A replace of a free range without room** is an extinction: its detach does not check the
headroom. -/
theorem Ok.vmaReplaceRangeIn_extinct (h : s.Ok xs) (hv : v ∉ s.live) (hm : s.Mappable (some b) prot off)
    (hadm : vmaAdmits (s.burrows b) vaddr (vaddr + length) prot off)
    (hrange : RangeOk vaddr length) (htop : vaddr + length ≤ userVaTop)
    (hfree : s.vmaNextOverlapIn vaddr (vaddr + length) = none) (hroom : ¬s.Room exempt)
    (pickPiece : Option VmaRef) :
    s.vmaReplaceRangeIn exempt (some v) pickPiece vaddr length (some b) prot off = none := by
  have hsnd := vmaAlloc_snd hv hadm (hm.alive b rfl)
  rw [AddrSpace.vmaReplaceRangeIn, if_neg (not_or.mpr ⟨nofun, not_not.mpr hrange⟩)]
  rcases s.vmaAlloc_spec (some v) vaddr (vaddr + length) prot (some b) off hm.alive with
    hnone | ⟨s₁, nv, b', hsome, -, hb', -, hfresh⟩
  · rw [hnone] at hsnd
    cases hsnd
  cases hb'
  have hok₁ := h.fresh hfresh (ok_of_admits hadm hm.prot hm.offset)
  have hfree₁ : s₁.vmaNextOverlapIn vaddr (vaddr + length) = none := by
    rw [h.vmaNextOverlapIn_sameList hok₁ (h.sameList_fresh hfresh) hrange.lt, hfree]
  rw [hsome, Option.bind_some]
  dsimp only
  -- the detach of a free range returns before it looks at the headroom
  rw [AddrSpace.vmaDetachRangeIn, if_neg (not_or.mpr ⟨not_not.mpr hrange, not_lt.mpr htop⟩), hfree₁]
  dsimp only [Option.bind_some]
  rw [if_neg (not_not.mpr rfl), hok₁.mustInsert_eq_none hfresh.mem_live
    (fun hmem => h.ne_of_fresh hfresh hmem rfl) (by rwa [Room, hfresh.count, ← Room])]
  rfl

/-- **A replace of a free range at the cap**, by a caller that is not exempt: an extinction. -/
theorem replace_free_range_at_cap :
    ∃ ops s op, Run (init fun _ => heldBurrow) ops s ∧ (∀ op ∈ ops, op.exempt = false) ∧
      s.Allowed op ∧ op.exempt = false ∧ s.step op = none := by
  obtain ⟨ops, s, xs, hrun, hops, hfill⟩ := exists_filled le_rfl
  have hok := hfill.ok
  have hslot : 65536 < vmaSlots := by decide
  have hnew : (⟨65536, hslot⟩ : VmaRef) ∉ s.live := fun hmem => lt_irrefl _ (hfill.live _ hmem)
  have hm : s.Mappable (some 7) vmaProtRead 0 := by
    refine ⟨?_, rfl, by decide⟩
    rintro _ ⟨⟩
    exact .inl (hfill.held ▸ one_pos)
  have hadm : vmaAdmits (s.burrows 7) 0x10000000000 (0x10000000000 + 0x1000) vmaProtRead 0 := by
    rw [vmaAdmits, hfill.pages]
    decide
  -- all mappings end below the range
  have hsp : Split s xs 0x10000000000 (0x10000000000 + 0x1000) xs [] [] := by
    refine ⟨by simp, fun v hv => ?_, nofun, nofun⟩
    exact (hfill.below v hv).trans (by decide)
  refine ⟨ops, s, .replace false (some ⟨65536, hslot⟩) none 0x10000000000 0x1000 (some 7)
    vmaProtRead 0, hrun, hops, hm, rfl, congrArg (Option.map Prod.fst)
    (hok.vmaReplaceRangeIn_extinct hnew hm hadm (by decide) (by decide) ?_ ?_ none)⟩
  · exact hok.vmaNextOverlapIn hsp (by decide)
  · rw [hok.room_iff, hfill.length]
    decide

end AddrSpace

end Thylacine
