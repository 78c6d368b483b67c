import Thylacine.Larder.Larder

/-!
# What Each Call Does to the Cache

The three tables are well-formed and everything in them satisfies some facts (`Larder.Keeps`).
There is one lemma for each call: an install adds what it was given unless the guard stops it,
an invalidation removes what it names, and nothing else changes. The serves return entries, and
set reference bits (`Larder.Touched`).
-/

namespace Thylacine

open ClockTable SeqLog

/-- What is known of the entries of a cache. -/
structure Facts where
  attr : UInt64 → AttrEnt → Prop
  dentry : UInt64 → Name → DentryEnt → Prop
  page : UInt64 → ℕ → PageEnt → Prop

/-- One set of facts **follows** from another. -/
structure Facts.Imp (F G : Facts) : Prop where
  attr : ∀ q e, F.attr q e → G.attr q e
  dentry : ∀ p n e, F.dentry p n e → G.dentry p n e
  page : ∀ q i e, F.page q i e → G.page q i e

/-- The tables are well-formed, their entries satisfy `F`, and page slots with content have a
buffer. -/
structure Larder.Keeps (l : Larder) (F : Facts) : Prop where
  attrOk : l.attr.Ok attrShape (fun _ => True) l.epoch
  dentryOk : l.dentry.Ok dentryShape (fun _ => True) l.epoch
  pageOk : l.page.Ok pageShape (fun e => e.buffer = true) l.epoch
  attr : ∀ q e, l.attr.Entry l.epoch q e → F.attr q e
  dentry : ∀ p n e, l.dentry.Entry l.epoch (p, n) e → Larder.cacheable n = true ∧ F.dentry p n e
  page : ∀ q i e, l.page.Entry l.epoch (q, i) e → F.page q i e

namespace Larder

variable {l l' : Larder} {F G : Facts} {q : UInt64} {seq0 cvers : ℕ} {oom oom' : Bool}

theorem init_keeps : init.Keeps F where
  attrOk := Table.blank_ok (by decide) false
  dentryOk := Table.blank_ok (by decide) false
  pageOk := Table.blank_ok (by decide) false
  attr _ _ h := absurd h (Table.not_entry_blank false)
  dentry _ _ _ h := absurd h (Table.not_entry_blank false)
  page _ _ _ h := absurd h (Table.not_entry_blank false)

namespace Keeps

variable (h : l.Keeps F)
include h

theorem imp (hFG : F.Imp G) : l.Keeps G where
  attrOk := h.attrOk
  dentryOk := h.dentryOk
  pageOk := h.pageOk
  attr q e he := hFG.attr q e (h.attr q e he)
  dentry p n e he := ⟨(h.dentry p n e he).1, hFG.dentry p n e (h.dentry p n e he).2⟩
  page q i e he := hFG.page q i e (h.page q i e he)

/-! ### Attributes -/

theorem touchAttr (i : ℕ) : Keeps { l with attr := l.attr.touch i } F where
  attrOk := h.attrOk.touch
  dentryOk := h.dentryOk
  pageOk := h.pageOk
  attr q e he := h.attr q e (Table.sameEntries_touch.entry.mp he)
  dentry := h.dentry
  page := h.page

/-- What is served **is an entry**, with all fields known. -/
theorem attrServe_hit {st : Stat} (hs : (l.attrServe q).2 = .hit st) :
    ∃ e, F.attr q e ∧ e.permOnly = false ∧ e.attr = st := by
  rw [attrServe] at hs
  cases hfind : l.attrFind q with
  | none =>
    rw [hfind] at hs
    cases hs
  | some i =>
    rw [hfind] at hs
    dsimp only at hs
    split at hs
    · cases hs
    · next hperm =>
        have he := h.attr q _ (h.attrOk.entry_of_find hfind)
        exact ⟨_, he, eq_false_of_ne_true hperm, Served.hit.inj hs⟩

/-- An install adds **what it was given**, if not stopped. -/
theorem attrInstall {attr : Stat} {gen : Option ℕ}
    (hnew : l.invalHits seq0 q = false → F.attr q ⟨cvers, false, gen, attr⟩) :
    (l.attrInstall seq0 q cvers attr gen oom).Keeps F := by
  fun_cases Larder.attrInstall l seq0 q cvers attr gen oom with
  | case1 | case2 => exact h
  | case3 hguard t hens =>
    obtain ⟨hok, hready, hsub⟩ := h.attrOk.ensure hens
    obtain ⟨hok', hentry⟩ := hok.install hready trivial q
    refine ⟨hok', h.dentryOk, h.pageOk, fun q' e he => ?_, h.dentry, h.page⟩
    obtain ⟨rfl, rfl⟩ | ⟨-, hold⟩ := hentry q' e he
    · exact hnew (eq_false_of_ne_true hguard)
    · exact h.attr q' e (hsub q' e hold)

section

variable (hattr : ∀ q' e, q' ≠ q → F.attr q' e → G.attr q' e)
  (hdentry : ∀ p n e, F.dentry p n e → G.dentry p n e)
  (hpage : ∀ q i e, F.page q i e → G.page q i e)
include hattr hdentry hpage

/-- An invalidation removes **the entry of its file**. -/
theorem attrInvalidate : (l.attrInvalidate q).Keeps G := by
  have h' : l.Keeps { G with attr := F.attr } := h.imp ⟨fun _ _ => id, hdentry, hpage⟩
  obtain ⟨hok, hentry⟩ := h.attrOk.dropKey q
  refine ⟨hok, h.dentryOk, h.pageOk, fun q' e he => ?_, h'.dentry, h'.page⟩
  obtain ⟨hne, hold⟩ := hentry q' e he
  exact hattr q' e hne (h.attr q' e hold)

/-- A downgrade leaves **the permissions** of its file. -/
theorem attrDowngrade
    (hself : ∀ e, F.attr q e → G.attr q { e with permOnly := true }) : (l.attrDowngrade q).Keeps G := by
  have h' : l.Keeps { G with attr := F.attr } := h.imp ⟨fun _ _ => id, hdentry, hpage⟩
  have hrest {t : Table Unit UInt64 AttrEnt} (hok : t.Ok attrShape (fun _ => True) l.epoch)
      (hentry : ∀ q' e, t.Entry l.epoch q' e → G.attr q' e) :
      Keeps { l.invalLog q with attr := t } G :=
    ⟨hok, h.dentryOk, h.pageOk, hentry, h'.dentry, h'.page⟩
  rw [Larder.attrDowngrade]
  cases hfind : l.attrFind q with
  | none =>
    refine hrest h.attrOk fun q' e he => hattr q' e ?_ (h.attr q' e he)
    rintro rfl
    exact h.attrOk.not_entry_of_find hfind he
  | some i =>
    dsimp only
    split
    · next hperm =>
        refine hrest h.attrOk fun q' e he => ?_
        by_cases hq : q' = q
        · -- The one slot of the file is already downgraded.
          subst hq
          obtain ⟨j, hj, hjkey, rfl⟩ := he
          have hji : j = i := Option.some.inj
            ((h.attrOk.find_eq_some_iff.mpr ⟨hj, hjkey⟩).symm.trans hfind)
          have hG := hself _ (h.attr q' _ ⟨j, hj, hjkey, rfl⟩)
          rw [hji] at hG ⊢
          rw [← hperm] at hG
          exact hG
        · exact hattr q' e hq (h.attr q' e he)
    · obtain ⟨hok, hentry⟩ := h.attrOk.setVal hfind trivial
      refine hrest hok fun q' e he => ?_
      obtain ⟨rfl, rfl⟩ | ⟨hne, hold⟩ := hentry q' e he
      · exact hself _ (h.attr q' _ (h.attrOk.entry_of_find hfind))
      · exact hattr q' e hne (h.attr q' e hold)

end

/-! ### Names -/

theorem touchDentry (i : ℕ) : Keeps { l with dentry := l.dentry.touch i } F where
  attrOk := h.attrOk
  dentryOk := h.dentryOk.touch
  pageOk := h.pageOk
  attr := h.attr
  dentry p n e he := h.dentry p n e (Table.sameEntries_touch.entry.mp he)
  page := h.page

theorem dentryFind {p : UInt64} {n : Name} {d : ℕ} (hd : l.dentryFind p n = some d) :
    F.dentry p n (l.dentry.slots d).val := by
  rw [Larder.dentryFind] at hd
  split at hd
  · exact (h.dentry p n _ (h.dentryOk.entry_of_find hd)).2
  · cases hd

theorem dentryInstall {p child : UInt64} {n : Name} {negative : Bool}
    (hnew : l.invalHits seq0 p = false → F.dentry p n ⟨if negative then 0 else child, negative⟩) :
    (l.dentryInstall seq0 p n child negative oom).Keeps F := by
  fun_cases Larder.dentryInstall l seq0 p n child negative oom with
  | case1 | case2 | case3 => exact h
  | case4 hname hguard t hens =>
    obtain ⟨hok, hready, hsub⟩ := h.dentryOk.ensure hens
    obtain ⟨hok', hentry⟩ := hok.install hready trivial (p, n)
    refine ⟨h.attrOk, hok', h.pageOk, h.attr, fun p' n' e he => ?_, h.page⟩
    obtain ⟨heq, rfl⟩ | ⟨-, hold⟩ := hentry (p', n') e he
    · cases heq
      exact ⟨by simpa using hname, hnew (eq_false_of_ne_true hguard)⟩
    · exact h.dentry p' n' e (hsub (p', n') e hold)

/-- An invalidation removes **its binding**; long names are never cached. -/
theorem dentryInvalidateName {p : UInt64} {n : Name} (hattr : ∀ q e, F.attr q e → G.attr q e)
    (hdentry : ∀ p' n' e, (p', n') ≠ (p, n) → F.dentry p' n' e → G.dentry p' n' e)
    (hpage : ∀ q i e, F.page q i e → G.page q i e) : (l.dentryInvalidateName p n).Keeps G := by
  have h' : l.Keeps { G with dentry := F.dentry } := h.imp ⟨hattr, fun _ _ _ => id, hpage⟩
  rw [Larder.dentryInvalidateName]
  split
  · obtain ⟨hok, hentry⟩ := h.dentryOk.dropKey (p, n)
    refine ⟨h.attrOk, hok, h.pageOk, h'.attr, fun p' n' e he => ?_, h'.page⟩
    obtain ⟨hne, hold⟩ := hentry (p', n') e he
    exact ⟨(h.dentry p' n' e hold).1, hdentry p' n' e hne (h.dentry p' n' e hold).2⟩
  · next hname =>
      refine ⟨h.attrOk, h.dentryOk, h.pageOk, h'.attr, fun p' n' e he => ?_, h'.page⟩
      obtain ⟨hc, hF⟩ := h.dentry p' n' e he
      refine ⟨hc, hdentry p' n' e ?_ hF⟩
      rintro ⟨⟩
      exact hname hc

/-! ### Pages -/

theorem touchPage (i : ℕ) : Keeps { l with page := l.page.touch i } F where
  attrOk := h.attrOk
  dentryOk := h.dentryOk
  pageOk := h.pageOk.touch
  attr := h.attr
  dentry := h.dentry
  page q i e he := h.page q i e (Table.sameEntries_touch.entry.mp he)

theorem pageFind {idx i : ℕ} (hi : l.pageFind q idx = some i) : F.page q idx (l.page.slots i).val :=
  h.page q idx _ (h.pageOk.entry_of_find hi)

/-- What is served is **a piece of an entry**. -/
theorem pageServe_hit {idx off want wantCvers : ℕ} {bs : List UInt8}
    (hs : (l.pageServe q idx off want wantCvers).2 = .hit bs) :
    ∃ e, F.page q idx e ∧ bs = (e.bytes.drop off).take want := by
  rw [pageServe] at hs
  split at hs
  · cases hs
  split at hs
  · cases hs
  · next i hfind =>
      dsimp only at hs
      split at hs
      · exact ⟨_, h.pageFind hfind, (Served.hit.inj hs).symm⟩
      · cases hs

theorem pageInstall {idx : ℕ} {data : List UInt8} (hnew : l.invalHits seq0 q = false →
      F.page q idx ⟨cvers, false, true, data.take larderPageSize⟩) :
    (l.pageInstall seq0 q idx cvers data oom oom').Keeps F := by
  rw [Larder.pageInstall]
  split
  · exact h
  next hguard =>
  cases hens : l.page.ensure oom with
  | none => exact h
  | some t =>
    obtain ⟨hok, hready, hsub⟩ := h.pageOk.ensure hens
    dsimp only
    split
    · next hoom =>
        -- No memory for the buffer of a fresh slot: the slot is given up.
        have hbad : ¬((t.installSlot pageShape l.epoch (q, idx)).2.slots
            (t.installSlot pageShape l.epoch (q, idx)).1).val.buffer = true := by
          intro hb
          rw [hb] at hoom
          cases hoom
        obtain ⟨hok', hentry⟩ := hok.abandon (q, idx) hbad
        exact ⟨h.attrOk, h.dentryOk, hok', h.attr, h.dentry,
          fun q' i e he => h.page q' i e (hsub _ e (hentry _ e he))⟩
    · obtain ⟨hok', hentry⟩ := hok.install
        (v := (⟨cvers, false, true, data.take larderPageSize⟩ : PageEnt)) hready rfl (q, idx)
      refine ⟨h.attrOk, h.dentryOk, hok', h.attr, h.dentry, fun q' i e he => ?_⟩
      obtain ⟨heq, rfl⟩ | ⟨-, hold⟩ := hentry (q', i) e he
      · cases heq
        exact hnew (eq_false_of_ne_true hguard)
      · exact h.page q' i e (hsub _ e hold)

/-- An invalidation removes **every page it names**. -/
theorem pageDrop {p : ℕ → Bool} (hattr : ∀ q e, F.attr q e → G.attr q e)
    (hdentry : ∀ p n e, F.dentry p n e → G.dentry p n e)
    (hpage : ∀ q' i e, (q' = q → p i = false) → F.page q' i e → G.page q' i e) :
    Keeps { l.invalLog q with page := l.pageDrop q p } G := by
  have h' : l.Keeps { G with page := F.page } := h.imp ⟨hattr, hdentry, fun _ _ _ => id⟩
  obtain ⟨hok, hentry⟩ := h.pageOk.dropMatching .byFile
    (p := fun k => k.1 == q && p k.2) (b := pageBucket .byFile (q, 0)) (by
      rintro ⟨q', i⟩ hk
      obtain ⟨hq, -⟩ := Bool.and_eq_true_iff.mp hk
      obtain rfl : q' = q := beq_iff_eq.mp hq
      rfl)
  refine ⟨h.attrOk, h.dentryOk, hok, h'.attr, h'.dentry, fun q' i e he => ?_⟩
  obtain ⟨hne, hold⟩ := hentry (q', i) e he
  refine hpage q' i e ?_ (h.page q' i e hold)
  rintro rfl
  simpa using hne

/-- A snapshot's piece is **the start of an entry**. -/
theorem pagesCover_some {size i n : ℕ} {pieces : List (List UInt8)}
    (hs : (pagesCover q cvers size l i n).2 = some pieces) :
    pieces.length = n ∧ ∀ j piece, pieces[j]? = some piece →
      piece.length = min larderPageSize (size - (i + j) * larderPageSize) ∧
      ∃ e, F.page q (i + j) e ∧ piece = e.bytes.take piece.length := by
  fun_induction pagesCover q cvers size l i n generalizing pieces with
  | case1 =>
    cases hs
    exact ⟨rfl, nofun⟩
  | case2 | case3 | case4 => cases hs
  | case5 _ i n s hfind _ _ _ hlen =>
    rename_i ih
    obtain ⟨rest, hrest, rfl⟩ := Option.map_eq_some_iff.mp hs
    obtain ⟨hn, hpieces⟩ := ih (h.touchPage s) hrest
    refine ⟨by rw [List.length_cons, hn], fun j piece hj => ?_⟩
    cases j with
    | zero =>
      cases hj
      rw [List.length_take, Nat.min_eq_left (Nat.le_of_not_lt hlen)]
      exact ⟨rfl, _, h.pageFind hfind, rfl⟩
    | succ j =>
      obtain ⟨hl, hp⟩ := hpieces j piece hj
      rw [Nat.add_right_comm, Nat.add_assoc] at hl hp
      exact ⟨hl, hp⟩

/-! ### Forgetting -/

/-- After a forget there is **no entry**. -/
theorem forgetAll (hepoch : l.epoch + 1 < 2 ^ 64) : l.forgetAll.Keeps G := by
  have hep : l.forgetAll.epoch = l.epoch + 1 := Nat.mod_eq_of_lt hepoch
  refine ⟨?_, ?_, ?_, fun q e he => ?_, fun p n e he => ?_, fun q i e he => ?_⟩
  · rw [hep]; exact h.attrOk.mono (Nat.le_succ _)
  · rw [hep]; exact h.dentryOk.mono (Nat.le_succ _)
  · rw [hep]; exact h.pageOk.mono (Nat.le_succ _)
  · rw [hep] at he
    exact absurd he (h.attrOk.not_entry_of_lt (Nat.lt_succ_self _))
  · rw [hep] at he
    exact absurd he (h.dentryOk.not_entry_of_lt (Nat.lt_succ_self _))
  · rw [hep] at he
    exact absurd he (h.pageOk.not_entry_of_lt (Nat.lt_succ_self _))

end Keeps

/-! ### Serves -/

/-- Reference bits were set, nothing else. -/
inductive Touched (l : Larder) : Larder → Prop
  | refl : Touched l l
  | attr {l' : Larder} (h : Touched l l') (i : ℕ) : Touched l { l' with attr := l'.attr.touch i }
  | dentry {l' : Larder} (h : Touched l l') (i : ℕ) :
      Touched l { l' with dentry := l'.dentry.touch i }
  | page {l' : Larder} (h : Touched l l') (i : ℕ) : Touched l { l' with page := l'.page.touch i }

theorem Keeps.touched (h : l.Keeps F) (ht : Touched l l') : l'.Keeps F := by
  induction ht with
  | refl => exact h
  | attr _ i ih => exact ih.touchAttr i
  | dentry _ i ih => exact ih.touchDentry i
  | page _ i ih => exact ih.touchPage i

/-- Nothing is logged. -/
def SameLog (l l' : Larder) : Prop := l'.log = l.log ∧ l'.epoch = l.epoch

theorem Touched.sameLog (h : Touched l l') : SameLog l l' := by
  induction h with
  | refl => exact ⟨rfl, rfl⟩
  | attr _ _ ih | dentry _ _ ih | page _ _ ih => exact ih

theorem attrServe_touched (l : Larder) (q : UInt64) : Touched l (l.attrServe q).1 := by
  fun_cases attrServe l q with
  | case1 | case2 => exact .refl
  | case3 => exact .attr .refl _

theorem Touched.walkFrom (h : Touched l l') (leafOk : Bool) (cur : UInt64) (names : List Name) :
    Touched l (walkFrom leafOk l' cur names).1 := by
  fun_induction Larder.walkFrom leafOk l' cur names with
  | case1 | case2 | case4 | case5 => exact h
  | case3 => exact h.dentry _
  | case6 _ _ _ _ _ _ _ _ _ _ _ ih => exact ih ((h.attr _).dentry _)

theorem walkServe_touched (l : Larder) (base : UInt64) (names : List Name) (leafOk : Bool) :
    Touched l (l.walkServe base names leafOk).1 := by
  rw [walkServe]
  split
  · exact .refl
  · exact Touched.refl.walkFrom leafOk base names

theorem pageServe_touched (l : Larder) (q : UInt64) (idx off want wantCvers : ℕ) :
    Touched l (l.pageServe q idx off want wantCvers).1 := by
  fun_cases pageServe l q idx off want wantCvers with
  | case1 | case2 | case4 => exact .refl
  | case3 => exact .page .refl _

theorem Touched.pagesCover (h : Touched l l') (q : UInt64) (cvers size i n : ℕ) :
    Touched l (pagesCover q cvers size l' i n).1 := by
  fun_induction Larder.pagesCover q cvers size l' i n with
  | case1 | case2 | case3 | case4 => exact h
  | case5 _ _ _ _ _ _ _ _ _ _ ih => exact ih (h.page _)

theorem pagesSnapshot_touched (l : Larder) (q : UInt64) (cvers size seq0 : ℕ) :
    Touched l (l.pagesSnapshot q cvers size seq0).1 := by
  rw [pagesSnapshot]
  split
  · exact .refl
  · exact Touched.refl.pagesCover q cvers size 0 (npages size)

end Larder

end Thylacine
