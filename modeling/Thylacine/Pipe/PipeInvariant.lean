import Thylacine.Pipe.Pipe

/-!
# The Invariant of a Pipe

What one hold of the ring lock does is said once (`Req.sample_spec`), and so is what a step leaves
to the calls that do not take it (`Frame`). The invariant has a part for the pipe and a part for
each call by itself (`Local`): the lock and the hooks are where its program counter says, its end
is open, and if it is blocked then it has nothing to do, its hook is ready, or a walk of the list
is to come.
-/

namespace Thylacine

open List RingBuffer
open Function (update update_of_ne update_self)

namespace Pipe

/-! ### One hold of the lock -/

/-- The ring cannot take a write of `n` bytes. -/
def Full (r : PipeRing) (n : ℕ) : Prop :=
  if n ≤ pipeBufSize then pipeBufSize - r.ring.count < n else pipeBufSize - r.ring.count = 0

/-- A call with nothing to do: the ring is empty (reader) or full (writer), not at end of file. -/
def Req.Waits (q : Req) (r : PipeRing) : Prop :=
  match q.kind with
  | .read _ => r.ring.count = 0 ∧ r.writeEof = false
  | .write _ => Full r q.n ∧ r.readEof = false ∧ r.writeEof = false
  | .frame _ => False

/-- The bytes of a write. -/
def Kind.WritesFrom (k : Kind) (buf : ℕ → UInt8) : Prop := k = .write buf ∨ k = .frame buf

/-- What a hold of the lock does. -/
structure Sample (q : Req) (r : PipeRing) (a : Sampled) : Prop where
  ok : a.r.ring.Ok pipeBufSize
  flow : r.ring.contents pipeBufSize ++ a.put = a.took ++ a.r.ring.contents pipeBufSize
  readEof : a.r.readEof = r.readEof
  writeEof : a.r.writeEof = r.writeEof
  still : (∀ rc, a.out ≠ .wake rc) → a.r = r ∧ a.took = [] ∧ a.put = []
  wake : ∀ rc, a.out = .wake rc → 0 < rc
  took : q.on = .read → ∀ rc, a.out = .wake rc → a.took.length = rc ∧ rc ≤ q.n
  kept : q.on = .write → a.took = []
  block : a.out = .block → q.Waits r
  put : a.put ≠ [] → r.readEof = false ∧ r.writeEof = false ∧
    ∃ buf, q.kind.WritesFrom buf ∧ a.put = slice buf a.put.length ∧
      (q.n ≤ pipeBufSize → a.put.length = q.n) ∧ a.out = .wake a.put.length
  ret : q.on = .read → ∀ rc, a.out = .ret rc →
    rc ≤ 0 ∧ (rc = 0 → r.ring.count = 0 ∧ r.writeEof = true)

variable {q : Req} {r : PipeRing} {ring : RingBuffer.Ring UInt8} {n : ℕ}

/-- A hold of the lock that leaves the ring alone. -/
theorem sample_still (h : r.ring.Ok pipeBufSize) {out : Outcome} (hwake : ∀ rc, out ≠ .wake rc)
    (hblock : out = .block → q.Waits r)
    (hret : q.on = .read → ∀ rc, out = .ret rc →
      rc ≤ 0 ∧ (rc = 0 → r.ring.count = 0 ∧ r.writeEof = true)) :
    Sample q r { r := r, out := out } where
  ok := h
  flow := append_nil _
  readEof := rfl
  writeEof := rfl
  still := fun _ => ⟨rfl, rfl, rfl⟩
  wake := fun rc hrc => absurd hrc (hwake rc)
  took := fun _ rc hrc => absurd hrc (hwake rc)
  kept := fun _ => rfl
  block := hblock
  put := absurd rfl
  ret := hret

/-- `ring_write` takes a block, as large as it fits. -/
theorem ringWrite_spec (hn : 0 < n) (hroom : ring.count < pipeBufSize) (buf : ℕ → UInt8) :
    ∃ k : ℕ, ringWrite ring buf n = (ring.push pipeBufSize buf k, (k : ℤ)) ∧ 0 < k ∧
      ring.count + k ≤ pipeBufSize ∧ (n ≤ pipeBufSize - ring.count → k = n) := by
  refine ⟨if n < pipeBufSize - ring.count then n else pipeBufSize - ring.count, ?_, ?_, ?_, ?_⟩
  · unfold ringWrite
    rw [if_neg (by omega)]
    simp only [Int.toNat_natCast]
    rw [if_neg (by split_ifs <;> omega)]
  all_goals split_ifs <;> omega

/-- `ring_read` takes a block, as large as there is and asked for. -/
theorem ringRead_spec (hn : 0 < n) (hcount : 0 < ring.count) :
    ∃ k : ℕ, ringRead ring n = ring.pop pipeBufSize k ∧ 0 < k ∧ k ≤ ring.count ∧ k ≤ n := by
  refine ⟨if n < ring.count then n else ring.count, ?_, ?_, ?_, ?_⟩
  · unfold ringRead
    rw [if_neg (by omega)]
    simp only [Int.toNat_natCast]
    rw [if_neg (by split_ifs <;> omega)]
  all_goals split_ifs <;> omega

variable {e : PipeEnd} {buf : ℕ → UInt8} {ends : PipeEnd → EndState} {now : Bool}

theorem on_eq_write (hq : q.kind.WritesFrom buf) : q.on = .write := by
  rcases hq with hq | hq <;> rw [Req.on, hq]

section

variable (h : r.ring.Ok pipeBufSize)
include h

/-- A write that the ring takes. -/
theorem accept_sample (hq : q.kind.WritesFrom buf) (hr : r.readEof = false)
    (hw : r.writeEof = false)
    (hroom : r.ring.count < pipeBufSize)
    (hfits : q.n ≤ pipeBufSize → q.n ≤ pipeBufSize - r.ring.count) :
    Sample q r (accept r q.n buf) := by
  obtain ⟨k, hput, hpos, hle, hall⟩ := ringWrite_spec q.pos hroom buf
  have hout : (if 0 < (k : ℤ) then Outcome.wake k else .ret k) = .wake k := if_pos (by omega)
  unfold accept
  rw [hput]
  simp only [hout, Int.toNat_natCast]
  have hread (h : q.on = .read) : False := by
    rw [on_eq_write hq] at h
    cases h
  refine ⟨h.push hle buf, ?_, rfl, rfl, fun hno => absurd rfl (hno k), ?_,
    fun h => (hread h).elim, fun _ => rfl, nofun, fun _ => ?_, fun h => (hread h).elim⟩
  · exact (Ring.contents_push h hle buf).symm
  · rintro rc ⟨⟩
    exact Int.natCast_pos.mpr hpos
  · refine ⟨hr, hw, buf, hq, ?_, fun hn => ?_, ?_⟩
    · rw [length_slice]
    · rw [length_slice, hall (hfits hn)]
    · rw [length_slice]

/-- An error. -/
theorem sample_ret {rc : ℤ} (hrc : rc < 0) : Sample q r { r := r, out := .ret rc } := by
  refine sample_still h nofun nofun fun _ => ?_
  rintro rc' ⟨⟩
  exact ⟨Int.le_of_lt hrc, fun heq => absurd heq (Int.ne_of_lt hrc)⟩

theorem readSample_spec (hq : q.kind = .read now) (nonblock : Bool) :
    Sample q r (readSample r q.n now nonblock) := by
  have hon : q.on ≠ .write := by
    rw [Req.on, hq]
    nofun
  unfold readSample
  split_ifs with hcount heof hnow
  · obtain ⟨k, hread, hpos, hle, hlen'⟩ := ringRead_spec q.pos hcount
    have hlen : (r.ring.pop pipeBufSize k).2.length = k := Ring.length_pop_snd
    have hout : (if 0 < (k : ℤ) then Outcome.wake k else .ret k) = .wake k := if_pos (by omega)
    rw [hread]
    simp only [hlen, hout]
    refine ⟨h.pop hle, ?_, rfl, rfl, fun hno => absurd rfl (hno k), ?_, fun _ => ?_,
      fun hw => absurd hw hon, nofun, absurd rfl, nofun⟩
    · exact (append_nil _).trans (Ring.contents_eq_pop h hle)
    · rintro rc ⟨⟩
      exact Int.natCast_pos.mpr hpos
    · rintro rc ⟨⟩
      exact ⟨congrArg _ hlen, Int.ofNat_le.mpr hlen'⟩
  · refine sample_still h nofun nofun fun _ => ?_
    rintro rc ⟨⟩
    exact ⟨Int.le_refl 0, fun _ => ⟨by omega, heof⟩⟩
  · exact sample_ret h (by decide)
  · refine sample_still h nofun (fun _ => ?_) nofun
    rw [Req.Waits, hq]
    exact ⟨by omega, Bool.eq_false_iff.mpr heof⟩

theorem writeSample_spec (hq : q.kind = .write buf) (nonblock : Bool) :
    Sample q r (writeSample r q.n buf nonblock) := by
  have hpos := q.pos
  unfold writeSample
  by_cases heof : (r.readEof || r.writeEof) = true
  · rw [if_pos heof]
    exact sample_ret h (by decide)
  rw [if_neg heof]
  rw [Bool.or_eq_true, not_or, Bool.not_eq_true, Bool.not_eq_true] at heof
  by_cases hfits : if q.n ≤ pipeBufSize then q.n ≤ pipeBufSize - r.ring.count
      else 0 < pipeBufSize - r.ring.count
  · rw [if_pos hfits]
    refine accept_sample h (.inl hq) heof.1 heof.2 ?_ fun hn => by rwa [if_pos hn] at hfits
    split_ifs at hfits <;> omega
  · rw [if_neg hfits]
    split_ifs
    · exact sample_ret h (by decide)
    · refine sample_still h nofun (fun _ => ?_) nofun
      rw [Req.Waits, hq]
      refine ⟨?_, heof⟩
      unfold Full
      split_ifs at hfits ⊢ <;> omega

theorem frameSample_spec (hq : q.kind = .frame buf) : Sample q r (frameSample r q.n buf) := by
  have hpos := q.pos
  unfold frameSample
  split_ifs with heof hfits
  · exact sample_ret h (by decide)
  · rw [Bool.or_eq_true, not_or, Bool.not_eq_true, Bool.not_eq_true] at heof
    exact accept_sample h (.inr hq) heof.1 heof.2 (by omega) fun _ => hfits
  · exact sample_ret h (by decide)

/-- **One hold of the lock**, for every call. -/
theorem Req.sample_spec (q : Req) (nonblock : Bool) : Sample q r (q.sample r nonblock) := by
  unfold sample
  split
  next hq => exact readSample_spec h hq nonblock
  next hq => exact writeSample_spec h hq nonblock
  next hq => exact frameSample_spec h hq

end

/-! ### Steps of other calls -/

/-- The call has its hook `i` on the list. -/
def Pc.Lists (i : ℕ) : Pc → Prop
  | .unlocking _ => i = 0
  | .asleep _ => i = 0
  | .unregistering _ _ => i = 0
  | .polling p => i ∈ p.listed
  | _ => False

/-- The call closes the end. -/
def Pc.Closes (e : PipeEnd) : Pc → Prop
  | .closing e' => e' = e
  | .dropping e' => e' = e
  | _ => False

/-- A poll call keeps its hooks' Spoors, and takes off every hook it put on. -/
structure Poll.Ok (p : Poll) : Prop where
  nodup : p.listed.Nodup
  kept : ∀ i ∈ p.listed, i ∈ p.held ∨ p.pos = .unlocking i
  bound : ∀ i ∈ p.listed, i < p.fds.length ∧
    match p.pos with
    | .scan j _ => i < j
    | .registering j => i < j
    | .unlocking j => i ≤ j
    | .unhook j _ => j ≤ i
  here : match p.pos with
    | .registering j => j < p.fds.length
    | .unlocking j => j < p.fds.length
    | _ => True

/-- A blocked call has nothing to do, a ready hook, or a walk to come; with the lock, nothing to do. -/
def Pc.Safe (s : Pipe) (t : ℕ) : Pc → Prop
  | .registering q => q.Waits s.r
  | .unlocking q => q.Waits s.r
  | .asleep q => q.Waits s.r ∨ s.ready (t, 0) = true ∨ ∃ u, (s.pc u).OwesWalk
  | .unregistering q _ => q.Waits s.r ∨ s.ready (t, 0) = true ∨ ∃ u, (s.pc u).OwesWalk
  | .walking e ev => ∀ u n rc, ev = some (.read u n rc) → e = .read ∧ u = t ∧ 0 < rc
  | .polling p => p.Ok
  | _ => True

/-- What holds of a call by itself. -/
structure Local (s : Pipe) (t : ℕ) (p : Pc) : Prop where
  lock : p.Locked ↔ s.lock = some t
  hooks : ∀ i, (t, i) ∈ s.hooks ↔ p.Lists i
  uses : ∀ e, p.Uses e → s.ends e = .opened
  closes : ∀ e, p.Closes e → s.ends e = .closing
  safe : p.Safe s t

/-- What a step of the call `t` leaves to the others. -/
structure Frame (s s' : Pipe) (t : ℕ) : Prop where
  pc : ∀ u, u ≠ t → s'.pc u = s.pc u
  lock : ∀ u, u ≠ t → (s'.lock = some u ↔ s.lock = some u)
  hooks : ∀ u, u ≠ t → ∀ i, (u, i) ∈ s'.hooks ↔ (u, i) ∈ s.hooks
  ends : ∀ e, s'.ends e = s.ends e ∨ ∀ u, u ≠ t → ¬(s.pc u).Uses e ∧ ¬(s.pc u).Closes e
  ring : s'.r = s.r ∨ s.lock = none ∧ (s'.pc t).OwesWalk
  ready : ∀ u, u ≠ t → ∀ i, s.ready (u, i) = true → s'.ready (u, i) = true
  walk : (s.pc t).OwesWalk → (s'.pc t).OwesWalk ∨ ∀ h ∈ s.hooks, s'.ready h = true

variable {s s' : Pipe} {t u : ℕ} {p p₀ : Pc}

/-- A blocked call stays safe under a step of another. -/
theorem Frame.waits (hf : Frame s s' t) (hu : u ≠ t) (hmem : (u, 0) ∈ s.hooks) {q : Req}
    (h : q.Waits s.r ∨ s.ready (u, 0) = true ∨ ∃ v, (s.pc v).OwesWalk) :
    q.Waits s'.r ∨ s'.ready (u, 0) = true ∨ ∃ v, (s'.pc v).OwesWalk := by
  rcases h with hwait | hready | ⟨v, hv⟩
  · rcases hf.ring with hr | ⟨-, howes⟩
    · exact .inl (hr ▸ hwait)
    · exact .inr (.inr ⟨t, howes⟩)
  · exact .inr (.inl (hf.ready u hu 0 hready))
  · by_cases hvt : v = t
    · subst hvt
      rcases hf.walk hv with howes | hall
      · exact .inr (.inr ⟨v, howes⟩)
      · exact .inr (.inl (hall _ hmem))
    · exact .inr (.inr ⟨v, hf.pc v hvt ▸ hv⟩)

/-- **The frame rule**: what holds of a call survives others' steps. -/
theorem Local.frame (h : Local s u p) (hp : s.pc u = p) (hf : Frame s s' t)
    (hu : u ≠ t) : Local s' u p := by
  have hring (hlocked : p.Locked) : s'.r = s.r := by
    rcases hf.ring with hr | ⟨hnone, -⟩
    · exact hr
    · rw [h.lock.mp hlocked] at hnone
      cases hnone
  refine ⟨h.lock.trans (hf.lock u hu).symm, fun i => (hf.hooks u hu i).trans (h.hooks i),
    fun e he => ?_, fun e he => ?_, ?_⟩
  · rcases hf.ends e with heq | hno
    · exact heq.trans (h.uses e he)
    · exact absurd (hp ▸ he) (hno u hu).1
  · rcases hf.ends e with heq | hno
    · exact heq.trans (h.closes e he)
    · exact absurd (hp ▸ he) (hno u hu).2
  · have hsafe := h.safe
    cases p with
    | registering q | unlocking q =>
      unfold Pc.Safe at hsafe ⊢
      rwa [hring trivial]
    | asleep q | unregistering q rc => exact hf.waits hu ((h.hooks 0).mpr rfl) hsafe
    | _ => exact hsafe

/-! ### The invariant -/

/-- The references that the ends hold to the ring. -/
def refs (ends : PipeEnd → EndState) : ℤ :=
  (if ends .read = .closed then 0 else 1) + (if ends .write = .closed then 0 else 1)

/-- The invariant of a pipe. -/
structure Inv (s : Pipe) : Prop where
  ring : s.r.ring.Ok pipeBufSize
  stream : s.accepted = s.returned ++ s.r.ring.contents pipeBufSize
  nodup : s.hooks.Nodup
  closer : ∀ t u e, (s.pc t).Closes e → (s.pc u).Closes e → t = u
  ref : s.ref = refs s.ends
  freed : s.freed = if s.ref = 0 then 1 else 0
  alive : s.extinct = false
  calls : ∀ t, Local s t (s.pc t)

theorem Inv.frame (h : Inv s) (hf : Frame s s' t) (hring : s'.r.ring.Ok pipeBufSize)
    (hstream : s'.accepted = s'.returned ++ s'.r.ring.contents pipeBufSize)
    (hnodup : s'.hooks.Nodup)
    (hcloser : ∀ e, (s'.pc t).Closes e → ∀ u, u ≠ t → ¬(s.pc u).Closes e)
    (href : s'.ref = refs s'.ends) (hfreed : s'.freed = if s'.ref = 0 then 1 else 0)
    (halive : s'.extinct = false) (hlocal : Local s' t (s'.pc t)) : Inv s' where
  ring := hring
  stream := hstream
  nodup := hnodup
  closer := by
    intro u v e hu hv
    by_cases hut : u = t <;> by_cases hvt : v = t
    · exact hut.trans hvt.symm
    · subst hut
      exact absurd (hf.pc v hvt ▸ hv) (hcloser e hu v hvt)
    · subst hvt
      exact absurd (hf.pc u hut ▸ hu) (hcloser e hv u hut)
    · exact h.closer u v e (hf.pc u hut ▸ hu) (hf.pc v hvt ▸ hv)
  ref := href
  freed := hfreed
  alive := halive
  calls := by
    intro u
    by_cases hut : u = t
    · exact hut ▸ hlocal
    · rw [hf.pc u hut]
      exact (h.calls u).frame rfl hf hut

/-- The step changed nothing but calls and hooks. -/
structure Quiet (s s' : Pipe) : Prop where
  r : s'.r = s.r
  accepted : s'.accepted = s.accepted
  returned : s'.returned = s.returned
  ref : s'.ref = s.ref
  freed : s'.freed = s.freed
  ends : s'.ends = s.ends
  extinct : s'.extinct = s.extinct

theorem Inv.quiet (h : Inv s) (hq : Quiet s s') (hf : Frame s s' t) (hnodup : s'.hooks.Nodup)
    (hcloser : ∀ e, (s'.pc t).Closes e → (s.pc t).Closes e) (hlocal : Local s' t (s'.pc t)) :
    Inv s' := by
  refine h.frame hf (hq.r ▸ h.ring) ?_ hnodup (fun e he u hu hcl => ?_) ?_ ?_
    (hq.extinct.trans h.alive) hlocal
  · rw [hq.accepted, hq.returned, hq.r, h.stream]
  · exact hu (h.closer u t e hcl (hcloser e he))
  · rw [hq.ref, hq.ends, h.ref]
  · rw [hq.freed, hq.ref, h.freed]

theorem Inv.call (h : Inv s) (hpc : s.pc t = p) : Local s t p := hpc ▸ h.calls t

/-! ### Steps that only move a call -/

/-- A call with neither lock nor hook on the list. -/
def Pc.Free (p : Pc) : Prop := ¬p.Locked ∧ ∀ i, ¬p.Lists i

theorem Local.free {p' : Pc} (h : Local s t p) (hp : p.Free) (hp' : p'.Free)
    (huses : ∀ e, p'.Uses e → s.ends e = .opened) (hcloses : ∀ e, p'.Closes e → s.ends e = .closing)
    (hsafe : p'.Safe s t) : Local s t p' where
  lock := iff_of_false hp'.1 fun hl => hp.1 (h.lock.mpr hl)
  hooks := fun i => iff_of_false (fun hm => hp.2 i ((h.hooks i).mp hm)) (hp'.2 i)
  uses := huses
  closes := hcloses
  safe := hsafe

theorem frame_goto (howes : ¬(s.pc t).OwesWalk) (p : Pc) : Frame s (s.goto t p) t where
  pc := fun _ hu => update_of_ne hu ..
  lock := fun _ _ => .rfl
  hooks := fun _ _ _ => .rfl
  ends := fun _ => .inl rfl
  ring := .inl rfl
  ready := fun _ _ _ h => h
  walk := fun h => absurd h howes

theorem pc_goto (p : Pc) : (s.goto t p).pc t = p := update_self ..

/-- A call that owes no walk may move to where it fits. -/
theorem Inv.goto (h : Inv s) (hpc : s.pc t = p₀) (howes : ¬p₀.OwesWalk)
    (hcloser : ∀ e, p.Closes e → p₀.Closes e) (hlocal : Local s t p) : Inv (s.goto t p) := by
  subst hpc
  have hf := frame_goto howes p
  refine h.quiet ⟨rfl, rfl, rfl, rfl, rfl, rfl, rfl⟩ hf h.nodup ?_ ?_
  · rwa [pc_goto]
  · rw [pc_goto]
    refine ⟨hlocal.lock, hlocal.hooks, hlocal.uses, hlocal.closes, ?_⟩
    have hwalk : (∃ u, (s.pc u).OwesWalk) → ∃ u, ((s.goto t p).pc u).OwesWalk := by
      rintro ⟨u, hu⟩
      refine ⟨u, ?_⟩
      rwa [hf.pc u fun heq => howes (heq ▸ hu)]
    have hsafe := hlocal.safe
    cases p with
    | asleep q | unregistering q rc => exact hsafe.imp_right (Or.imp_right hwalk)
    | _ => exact hsafe

/-- The log is not part of the invariant. -/
theorem Inv.log (h : Inv s) (log : List Event) : Inv { s with log := log } :=
  ⟨h.ring, h.stream, h.nodup, h.closer, h.ref, h.freed, h.alive, fun t =>
    have hl := h.calls t
    ⟨hl.lock, hl.hooks, hl.uses, hl.closes, by
      have hsafe := hl.safe
      cases hp : s.pc t <;> rw [hp] at hsafe <;> exact hsafe⟩⟩

/-- A call that returns. -/
theorem Inv.returns (h : Inv s) (hpc : s.pc t = p₀) (howes : ¬p₀.OwesWalk) (hfree : p₀.Free)
    (ev : Option Event) : Inv (s.returns t ev) :=
  (h.goto hpc howes (p := .idle) (fun _ => False.elim)
    ((h.call hpc).free hfree ⟨id, fun _ => id⟩ (fun _ => False.elim) (fun _ => False.elim)
      trivial)).log _

/-- Call `t`'s state, with the lock and its hooks. -/
def moved (s : Pipe) (t : ℕ) (p : Pc) (lock : Option ℕ) (hooks : List (ℕ × ℕ))
    (ready : ℕ × ℕ → Bool) : Pipe :=
  { s with pc := update s.pc t p, lock := lock, hooks := hooks, ready := ready }

variable {lock : Option ℕ} {hooks : List (ℕ × ℕ)} {ready : ℕ × ℕ → Bool} {i : ℕ}

theorem Inv.moved (h : Inv s) (hpc : s.pc t = p₀) (howes : ¬p₀.OwesWalk)
    (hlock : ∀ u, u ≠ t → (lock = some u ↔ s.lock = some u))
    (hhooks : ∀ u, u ≠ t → ∀ i, (u, i) ∈ hooks ↔ (u, i) ∈ s.hooks)
    (hready : ∀ u, u ≠ t → ∀ i, s.ready (u, i) = true → ready (u, i) = true)
    (hnodup : hooks.Nodup) (hcloser : ∀ e, p.Closes e → p₀.Closes e)
    (hlocal : Local (s.moved t p lock hooks ready) t p) : Inv (s.moved t p lock hooks ready) := by
  subst hpc
  have hself : (s.moved t p lock hooks ready).pc t = p := update_self ..
  refine h.quiet ⟨rfl, rfl, rfl, rfl, rfl, rfl, rfl⟩
    ⟨fun u hu => update_of_ne hu .., hlock, hhooks, fun _ => .inl rfl, .inl rfl, hready,
      fun hw => absurd hw howes⟩ hnodup ?_ ?_
  · rwa [hself]
  · rwa [hself]

/-- The lock concerns the call that takes or drops it. -/
theorem lock_iff_of_ne (hu : u ≠ t) {l l' : Option ℕ} (hl : l = none ∨ l = some t)
    (hl' : l' = none ∨ l' = some t) : l' = some u ↔ l = some u := by
  have hne : (some t : Option ℕ) ≠ some u := fun he => hu (Option.some.inj he).symm
  rcases hl with rfl | rfl <;> rcases hl' with rfl | rfl <;> simp [hne]

theorem on_of_readEntry {n : ℤ} {buf : Bool} (h : readEntry e n buf now = .ok q) : q.on = e := by
  unfold readEntry at h
  split_ifs at h with he
  cases h
  exact (not_not.mp he).symm

theorem on_of_writeEntry {n : ℤ} {buf : Option (ℕ → UInt8)} {frame : Bool}
    (h : writeEntry e n buf frame = .ok q) : q.on = e := by
  unfold writeEntry at h
  by_cases he : e = .write
  · rw [if_neg (not_not.mpr he)] at h
    cases buf with
    | none => cases h
    | some buf =>
      dsimp only at h
      by_cases hn : n < 0
      · rw [dif_pos hn] at h
        cases h
      by_cases h0 : n = 0
      · rw [dif_neg hn, dif_pos h0] at h
        cases h
      rw [dif_neg hn, dif_neg h0] at h
      cases h
      rw [he]
      cases frame <;> rfl
  · rw [if_pos he] at h
    cases h

section

variable (hpc : s.pc t = .idle)
include hpc

/-- The head of a read or a write. -/
theorem Inv.enter (h : Inv s) {entry : Except ℤ Req}
    (hopen : ∀ q, entry = .ok q → s.ends q.on = .opened) (ev : ℤ → Event) :
    Inv (s.enter t entry ev) := by
  cases entry with
  | error rc => exact h.returns hpc id ⟨id, fun _ => id⟩ _
  | ok q =>
    refine h.goto hpc id (fun _ => False.elim) ((h.call hpc).free ⟨id, fun _ => id⟩
      ⟨id, fun _ => id⟩ ?_ (fun _ => False.elim) trivial)
    rintro e rfl
    exact hopen q rfl

/-! ### End of file, and the ring -/

/-- A flag is set under the lock, and a walk is owed. -/
theorem Inv.mark (h : Inv s) (hlock : s.lock = none) (r' : PipeRing) (hr : r'.ring = s.r.ring)
    (hends : ∀ e, ends e = s.ends e ∨ ∀ u, u ≠ t → ¬(s.pc u).Uses e ∧ ¬(s.pc u).Closes e)
    (hrefs : refs ends = refs s.ends) (howes : p.OwesWalk) (hfree : p.Free)
    (huses : ∀ e, p.Uses e → ends e = .opened)
    (hcloses : ∀ e, p.Closes e → ends e = .closing ∧ ∀ u, u ≠ t → ¬(s.pc u).Closes e)
    (hsafe : ∀ s : Pipe, p.Safe s t) :
    Inv { s with r := r', ends := ends, pc := update s.pc t p } := by
  have hself : update s.pc t p t = p := update_self ..
  refine h.frame ⟨fun u hu => update_of_ne hu .., fun _ _ => .rfl,
      fun _ _ _ => .rfl, hends, .inr ⟨hlock, ?_⟩, fun _ _ _ hr => hr,
      fun hw => absurd hw (hpc ▸ id)⟩
    ?_ ?_ h.nodup ?_ (h.ref.trans hrefs.symm) h.freed h.alive ?_
  · change (update s.pc t p t).OwesWalk
    rwa [hself]
  · exact hr.symm ▸ h.ring
  · rw [hr, h.stream]
  · intro e he
    exact (hcloses e (hself ▸ he)).2
  · change Local _ t (update s.pc t p t)
    rw [hself]
    have hl := h.call hpc
    exact ⟨iff_of_false hfree.1 hl.lock.mpr,
      fun i => iff_of_false (fun hm => (hl.hooks i).mp hm) (hfree.2 i), huses,
      fun e he => (hcloses e he).1, hsafe _⟩

theorem Inv.hangup (h : Inv s) (hopen : s.ends .write = .opened)
    (hlock : s.lock = none) : Inv ((s.setEof .write).goto t (.walking .write none)) := by
  refine h.mark hpc hlock { s.r with writeEof := true } rfl
    (fun _ => .inl rfl) rfl trivial ⟨id, fun _ => id⟩ ?_ (fun _ => False.elim) (fun _ => ?_)
  · rintro e rfl
    exact hopen
  · intro u n rc hev
    cases hev

/-- `devpipe_close` up to its walk. -/
theorem Inv.close (h : Inv s) (hopen : s.ends e = .opened)
    (hunused : ∀ u, ¬(s.pc u).Uses e) (hlock : s.lock = none) :
    Inv (((s.setEof e).setEnd e .closing).goto t (.closing e)) := by
  have hno (u : ℕ) : ¬(s.pc u).Closes e := by
    intro hcl
    rw [(h.calls u).closes e hcl] at hopen
    cases hopen
  have hends (e' : PipeEnd) : update s.ends e .closing e' = s.ends e' ∨
      ∀ u, u ≠ t → ¬(s.pc u).Uses e' ∧ ¬(s.pc u).Closes e' := by
    by_cases he : e' = e
    · exact .inr fun u _ => he ▸ ⟨hunused u, hno u⟩
    · exact .inl (update_of_ne he ..)
  have hcloses (e' : PipeEnd) (he : (Pc.closing e).Closes e') :
      update s.ends e .closing e' = .closing ∧ ∀ u, u ≠ t → ¬(s.pc u).Closes e' := by
    obtain rfl : e = e' := he
    exact ⟨update_self .., fun u _ => hno u⟩
  have hrefs : refs (update s.ends e .closing) = refs s.ends := by cases e <;> simp [refs, hopen]
  cases e with
  | read =>
    exact h.mark hpc hlock { s.r with readEof := true } rfl hends hrefs trivial
      ⟨id, fun _ => id⟩ (fun _ => False.elim) hcloses fun _ => trivial
  | write =>
    exact h.mark hpc hlock { s.r with writeEof := true } rfl hends hrefs trivial
      ⟨id, fun _ => id⟩ (fun _ => False.elim) hcloses fun _ => trivial

end

/-- A hold of the ring lock. -/
theorem Inv.sampled (h : Inv s) (hpc : s.pc t = .sampling q) (hlock : s.lock = none)
    (nonblock : Bool) : Inv (s.sampled t q nonblock) := by
  have ha := q.sample_spec h.ring nonblock
  have hl := h.call hpc
  have hfree : (Pc.sampling q).Free := ⟨id, fun _ => id⟩
  have hopen : s.ends q.on = .opened := hl.uses q.on rfl
  unfold Pipe.sampled
  generalize q.sample s.r nonblock = a at ha
  obtain ⟨r, took, put, out⟩ := a
  cases out with
  | ret rc =>
    obtain ⟨hr, ht, hp⟩ := ha.still nofun
    dsimp only at hr ht hp ⊢
    subst hr ht hp
    rw [append_nil, append_nil]
    exact h.returns hpc id hfree _
  | wake rc =>
    have hwalk : Local s t (.walking q.on (some (q.event t rc))) := by
      refine hl.free hfree ⟨id, fun _ => id⟩ ?_ (fun _ => False.elim) ?_
      · rintro e rfl
        exact hopen
      · intro u n rc' hev
        unfold Req.event at hev
        split at hev <;> cases hev
        rename_i hon
        exact ⟨hon, rfl, ha.wake rc rfl⟩
    refine h.frame ⟨fun u hu => update_of_ne hu .., fun _ _ => .rfl,
        fun _ _ _ => .rfl, fun _ => .inl rfl, .inr ⟨hlock, ?_⟩, fun _ _ _ hr => hr,
        fun hw => absurd hw (hpc ▸ id)⟩
      ha.ok ?_ h.nodup ?_ h.ref h.freed h.alive ?_
    · rw [pc_goto]
      trivial
    · change s.accepted ++ put = s.returned ++ took ++ r.ring.contents pipeBufSize
      rw [h.stream, append_assoc, append_assoc]
      exact congrArg _ ha.flow
    · rw [pc_goto]
      exact fun _ => False.elim
    · rw [pc_goto]
      exact ⟨hwalk.lock, hwalk.hooks, hwalk.uses, hwalk.closes, hwalk.safe⟩
  | block =>
    obtain ⟨hr, ht, hp⟩ := ha.still nofun
    dsimp only at hr ht hp ⊢
    subst hr ht hp
    rw [append_nil, append_nil]
    refine h.moved hpc id (fun u hu => lock_iff_of_ne hu (.inl hlock) (.inr rfl))
      (fun _ _ _ => .rfl) (fun _ _ _ hr => hr) h.nodup (fun _ => False.elim)
      ⟨iff_of_true trivial rfl, fun i => iff_of_false (fun hm => (hl.hooks i).mp hm) id, ?_,
        fun _ => False.elim, ha.block rfl⟩
    rintro e rfl
    exact hopen

/-! ### Hooks -/

theorem mem_cons_of_ne (hu : u ≠ t) (i j : ℕ) (hooks : List (ℕ × ℕ)) :
    (u, i) ∈ (t, j) :: hooks ↔ (u, i) ∈ hooks := by
  rw [mem_cons, or_iff_right fun he => hu (congrArg Prod.fst he)]

theorem mem_erase_of_ne (hu : u ≠ t) (i j : ℕ) (hooks : List (ℕ × ℕ)) :
    (u, i) ∈ hooks.erase (t, j) ↔ (u, i) ∈ hooks :=
  List.mem_erase_of_ne fun he => hu (congrArg Prod.fst he)

section

variable (h : Inv s)
include h

/-- `poll_waiter_list_register` of a hook not on the list. -/
theorem Inv.register (hpc : s.pc t = p₀) (howes : ¬p₀.OwesWalk) (hi : (t, i) ∉ s.hooks)
    (hclose : ∀ e, ¬p.Closes e)
    (hlocal : Local (s.moved t p s.lock ((t, i) :: s.hooks) (update s.ready (t, i) false))
      t p) : Inv ((s.register t i).goto t p) :=
  h.moved hpc howes (fun _ _ => .rfl) (fun _ hu j => mem_cons_of_ne hu j i s.hooks)
    (fun _ hu _ hr => (update_of_ne (fun he => hu (congrArg Prod.fst he)) ..).trans hr)
    (nodup_cons.mpr ⟨hi, h.nodup⟩) (fun e he => absurd he (hclose e)) hlocal

/-- `pipe_block_locked` registers its hook. -/
theorem Inv.register_blocked (hpc : s.pc t = .registering q) :
    Inv ((s.register t 0).goto t (.unlocking q)) := by
  have hl := h.call hpc
  refine h.register hpc id (fun hm => (hl.hooks 0).mp hm) (fun _ => id)
    ⟨iff_of_true trivial (hl.lock.mp trivial), fun i => ?_, hl.uses, fun _ => False.elim, hl.safe⟩
  rw [show (s.moved t (.unlocking q) s.lock ((t, 0) :: s.hooks)
    (update s.ready (t, 0) false)).hooks = (t, 0) :: s.hooks from rfl, mem_cons,
    or_iff_left fun hm => (hl.hooks i).mp hm]
  exact ⟨congrArg Prod.snd, fun hi => congrArg (Prod.mk t) hi⟩

theorem Inv.unlock (hpc : s.pc t = .unlocking q) :
    Inv { s.goto t (.asleep q) with lock := none } := by
  have hl := h.call hpc
  have hlock := hl.lock.mp trivial
  exact h.moved hpc id (fun u hu => lock_iff_of_ne hu (.inr hlock) (.inl rfl)) (fun _ _ _ => .rfl)
    (fun _ _ _ hr => hr) h.nodup (fun _ => False.elim)
    ⟨iff_of_false id nofun, hl.hooks, hl.uses, fun _ => False.elim, .inl hl.safe⟩

theorem Inv.wakeup (hpc : s.pc t = .asleep q) (rc : SleepRc) :
    Inv (s.goto t (.unregistering q rc)) := by
  have hl := h.call hpc
  exact h.goto hpc id (fun _ => False.elim)
    ⟨iff_of_false id hl.lock.mpr, hl.hooks, hl.uses, fun _ => False.elim, hl.safe⟩

/-- A hook comes off the list. -/
theorem Inv.unregister (hpc : s.pc t = p₀) (howes : ¬p₀.OwesWalk) (hi : (t, i) ∈ s.hooks)
    (hclose : ∀ e, ¬p.Closes e)
    (hlocal : Local (s.moved t p s.lock (s.hooks.erase (t, i)) s.ready) t p) :
    Inv ((s.unregister t i).goto t p) := by
  rw [Pipe.unregister, if_pos hi]
  exact h.moved hpc howes (fun _ _ => .rfl) (fun u hu j => mem_erase_of_ne hu j i s.hooks)
    (fun _ _ _ hr => hr) (h.nodup.erase _) (fun e he => absurd he (hclose e)) hlocal

theorem Inv.unregister_blocked {rc : SleepRc} (hpc : s.pc t = .unregistering q rc) :
    Inv ((s.unregister t 0).resumed t q rc) := by
  have hl := h.call hpc
  have hmem : (t, 0) ∈ s.hooks := (hl.hooks 0).mpr rfl
  have hnone (i : ℕ) : (t, i) ∉ s.hooks.erase (t, 0) := by
    intro hm
    obtain rfl : i = 0 := (hl.hooks i).mp (mem_of_mem_erase hm)
    exact h.nodup.not_mem_erase hm
  have hgoto (p : Pc) (hp : p.Free) (huses : ∀ e, p.Uses e → s.ends e = .opened)
      (hclose : ∀ e, ¬p.Closes e) (hsafe : ∀ s : Pipe, p.Safe s t) :
      Inv ((s.unregister t 0).goto t p) :=
    h.unregister hpc id hmem hclose ⟨iff_of_false hp.1 hl.lock.mpr,
        fun i => iff_of_false (hnone i) (hp.2 i), huses, fun e he => absurd he (hclose e), hsafe _⟩
  cases rc with
  | ok => exact hgoto _ ⟨id, fun _ => id⟩ hl.uses (fun _ => id) fun _ => trivial
  | intr | noteintr =>
    exact (hgoto .idle ⟨id, fun _ => id⟩ (fun _ => False.elim) (fun _ => id) fun _ => trivial).log _

/-! ### Walks -/

/-- A walk of the list: every hook on it is ready. -/
theorem Inv.walk (hpc : s.pc t = p₀) (hfree : p₀.Free) (hp : p.Free)
    (hcloser : ∀ e, p.Closes e → p₀.Closes e) (huses : ∀ e, ¬p.Uses e)
    (hsafe : ∀ s : Pipe, p.Safe s t) : Inv (s.wake.goto t p) := by
  subst hpc
  have hl := h.calls t
  have hself : (s.wake.goto t p).pc t = p := pc_goto p
  refine h.quiet ⟨rfl, rfl, rfl, rfl, rfl, rfl, rfl⟩
    ⟨fun u hu => update_of_ne hu .., fun _ _ => .rfl, fun _ _ _ => .rfl,
      fun _ => .inl rfl, .inl rfl, fun _ _ _ hr => ?_, fun _ => .inr fun hk hm => ?_⟩
    h.nodup ?_ ?_
  · exact Bool.or_eq_true_iff.mpr (.inl hr)
  · exact Bool.or_eq_true_iff.mpr (.inr (contains_iff_mem.mpr hm))
  · rwa [hself]
  · rw [hself]
    exact ⟨iff_of_false hp.1 fun hlk => hfree.1 (hl.lock.mpr hlk),
      fun i => iff_of_false (fun hm => hfree.2 i ((hl.hooks i).mp hm)) (hp.2 i),
      fun e he => absurd he (huses e), fun e he => hl.closes e (hcloser e he), hsafe _⟩

end

/-! ### The last reference -/

theorem refs_closed (h : ends e ≠ .closed) : refs ends = refs (update ends e .closed) + 1 := by
  cases e <;> simp [refs, h]
  omega

theorem refs_nonneg (ends : PipeEnd → EndState) : 0 ≤ refs ends := by
  unfold refs
  split_ifs <;> omega

/-- `devpipe_close` drops its reference, which is there. -/
theorem Inv.dropRef (h : Inv s) (hpc : s.pc t = .dropping e) : Inv (s.dropRef t e) := by
  have hl := h.call hpc
  have hcl : s.ends e = .closing := hl.closes e rfl
  have hrefs := refs_closed (show s.ends e ≠ .closed by rw [hcl]; nofun)
  have hnn := refs_nonneg (update s.ends e .closed)
  have href := h.ref
  have hpos : ¬s.ref ≤ 0 := by omega
  have hfreed := h.freed
  have hno (u : ℕ) (hu : u ≠ t) : ¬(s.pc u).Uses e ∧ ¬(s.pc u).Closes e := by
    refine ⟨fun hus => ?_, fun hc => hu (h.closer u t e hc (by rw [hpc]; rfl))⟩
    rw [(h.calls u).uses e hus] at hcl
    cases hcl
  rw [Pipe.dropRef, if_neg hpos]
  refine h.frame ⟨fun u hu => update_of_ne hu .., fun _ _ => .rfl,
      fun _ _ _ => .rfl, fun e' => ?_, .inl rfl, fun _ _ _ hr => hr, ?_⟩
    h.ring h.stream h.nodup ?_ ?_ ?_ h.alive ?_
  · by_cases he : e' = e
    · exact .inr fun u hu => he ▸ hno u hu
    · exact .inl (update_of_ne he ..)
  · rw [hpc]
    exact False.elim
  · change ∀ e, (update s.pc t .idle t).Closes e → _
    rw [update_self]
    exact fun _ => False.elim
  · change s.ref - 1 = refs (update s.ends e .closed)
    omega
  · change (if s.ref = 1 then s.freed + 1 else s.freed) = if s.ref - 1 = 0 then 1 else 0
    rw [hfreed]
    split_ifs <;> omega
  · change Local _ t (update s.pc t .idle t)
    rw [update_self]
    exact ⟨iff_of_false id hl.lock.mpr, hl.hooks, fun _ => False.elim, fun _ => False.elim, trivial⟩

/-- The ring is there as long as an end is not closed. -/
theorem Inv.not_freed (h : Inv s) (he : s.ends e ≠ .closed) : s.freed = 0 := by
  have hrefs := refs_closed he
  have hnn := refs_nonneg (update s.ends e .closed)
  rw [h.freed, if_neg (by rw [h.ref]; omega)]

end Pipe

end Thylacine
