import Tpde.Assembler.FixupsA64

/-!
# Fixups of text that is written over

When a function is finished its prologue and its epilogues are written over the text, and then the
fixups are handled. That goes through if and only if every branch that does not reach its label finds a
veneer that is still empty (`handleFixups_isSome_iff`).
-/

namespace Tpde.Assembler.FunctionWriterA64

open Branches

variable {Op : Type}

section
variable {w w' : FunctionWriterA64 Op}

/-- What is written stays as it is. -/
theorem ensureSpace_code {size p : ℕ} (h : w.ensureSpace size = some w') (hp : p < w.offset) :
    w'.code p = w.code p := by
  obtain ⟨-, ⟨-, -, hcode, -⟩ | ⟨-, rfl⟩⟩ := ensureSpace_cases h
  · rw [hcode]
  · simp only [addVeneers, grown, offset_grow, veneerSize_grow, code_grow]
    exact writeAt_of_not_mem (.inl hp)

theorem writeUnchecked_code {i : Inst Op} {p : ℕ} (h : w.writeUnchecked i = some w')
    (hp : p < w.offset) : w'.code p = w.code p := by
  obtain ⟨-, h⟩ := Option.ite_none_right_eq_some.mp h
  rw [← Option.some.inj h]
  exact Function.update_of_ne hp.ne ..

theorem exec_code {call : Call Op} {p : ℕ} (h : call.exec w = some w') (hp : p < w.offset) :
    w'.code p = w.code p := by
  cases call with
  | ensureSpace size => exact ensureSpace_code h hp
  | writeInst i =>
    obtain ⟨-, h⟩ := Option.ite_none_left_eq_some.mp h
    obtain ⟨w₁, hw₁, h⟩ := Option.bind_eq_some_iff.mp h
    exact (writeUnchecked_code h (hp.trans_le (ensureSpace_fixups hw₁).1)).trans (ensureSpace_code hw₁ hp)
  | writeInstUnchecked i => exact writeUnchecked_code (Option.ite_none_left_eq_some.mp h).2 hp
  | labelCreate =>
    rw [← Option.some.inj h]
    rfl
  | labelPlace label =>
    obtain ⟨-, h⟩ := Option.ite_none_right_eq_some.mp h
    rw [← Option.some.inj h]
  | branchTo t label =>
    obtain ⟨-, rfl⟩ := branchTo_eq h
    exact Function.update_of_ne hp.ne ..

end

/-- The text of `g` is that of `w`, but for words that are no branches with fixups. -/
structure Patched (w g : FunctionWriterA64 Op) : Prop where
  labelOffsets : g.labelOffsets = w.labelOffsets
  labelFixups : g.labelFixups = w.labelFixups
  veneers : g.veneers = w.veneers
  condBrs : g.unresolvedCondBrs = w.unresolvedCondBrs
  testBrs : g.unresolvedTestBrs = w.unresolvedTestBrs
  code : ∀ f ∈ w.labelFixups, g.code f.off = w.code f.off

/-- A branch finds a slot: there is an area behind it, and it is not just behind an area that is used up. -/
def Slotted (w : FunctionWriterA64 Op) (f : LabelFixup) : Prop :=
  (∃ v, w.areaOf f = some v) ∧ ∀ v ∈ w.veneers, v + 4 * w.farIn v w.labelFixups ≠ f.off

/-- A branch can be filled in: its label is near enough for a veneer, and if it does not reach the label
itself then it finds a slot that is empty in the text of `g`. -/
def Fixable (w g : FunctionWriterA64 Op) (f : LabelFixup) : Prop :=
  ∃ l, w.target f = some l ∧ l - f.off < 128 * 1024 * 1024 ∧
    (w.IsFar f = true → w.Slotted f ∧ isZero (g.code (w.slotOf f)) = true)

/-- The writer `c` when of the fixups of `w` some are handled, in the text of `g`. -/
structure PassedIn (w g c : FunctionWriterA64 Op) (done rest : List LabelFixup) :
    Prop extends Passed w c done rest where
  unchanged : ∀ p, (∀ f ∈ done, p ≠ f.off ∧ (w.IsFar f = true → p ≠ w.slotOf f)) → c.code p = g.code p

section
variable {start : ℕ} {w g c c' : FunctionWriterA64 Op} {f : LabelFixup} {done rest : List LabelFixup}

theorem passedIn_nil (h : Inv start w) (hp : Patched w g) : PassedIn w g g [] w.labelFixups := by
  refine ⟨⟨hp.labelOffsets, ?_, ?_, ?_⟩, fun _ _ => rfl⟩
  · rw [hp.veneers]
    simp [farIn]
  · rw [hp.condBrs]
    exact h.condBrs.ge
  · rw [hp.testBrs]
    exact h.testBrs.ge

/-- One more fixup is handled. -/
theorem PassedIn.next (hd : PassedIn w g c done (f :: rest)) (hlabels : c'.labelOffsets = c.labelOffsets)
    (hveneers : c'.veneers = w.veneers.map fun v => v + 4 * w.farIn v (done ++ [f]))
    (hcode : ∀ p, p ≠ f.off → (w.IsFar f = true → p ≠ w.slotOf f) → c'.code p = c.code p)
    (hcond : w.unresolved .condBr rest ≤ c'.unresolvedCondBrs)
    (htest : w.unresolved .testBr rest ≤ c'.unresolvedTestBrs) :
    PassedIn w g c' (done ++ [f]) rest := by
  refine ⟨⟨hlabels.trans hd.labels, hveneers, hcond, htest⟩, fun p hp => ?_⟩
  obtain ⟨hdone, hlast⟩ := List.forall_mem_append.mp hp
  obtain ⟨hoff, hfar⟩ := hlast f (List.mem_singleton_self f)
  exact (hcode p hoff hfar).trans (hd.unchanged p hdone)

/-- The branch is not filled in yet. -/
theorem PassedIn.code_off (h : Inv start w) (hp : Patched w g) (hd : PassedIn w g c done (f :: rest))
    (hsplit : w.labelFixups = done ++ f :: rest) (hdone : ∀ x ∈ done, w.Fixable g x) :
      c.code f.off = w.code f.off := by
  have hf : f ∈ w.labelFixups := hsplit ▸ List.mem_append_right _ List.mem_cons_self
  rw [← hp.code f hf]
  refine hd.unchanged _ fun x hx => ⟨?_, fun hfar => ?_⟩
  · rw [← filter_lt h hsplit, List.mem_filter] at hx
    have : x.off < f.off := by simpa using hx.2
    exact this.ne'
  · obtain ⟨-, -, -, hslot⟩ := hdone x hx
    obtain ⟨⟨⟨v, hv⟩, -⟩, -⟩ := hslot hfar
    obtain ⟨i, hi, heq⟩ := slotOf_mem h (hsplit ▸ List.mem_append_left _ hx) hfar hv
    rw [heq]
    exact (slot_ne_off h (mem_of_areaOf hv).1 hi hf).symm

/-- Nor is the slot that it gets. -/
theorem PassedIn.code_slot {v : ℕ} (h : Inv start w) (hd : PassedIn w g c done (f :: rest))
    (hsplit : w.labelFixups = done ++ f :: rest) (hdone : ∀ x ∈ done, w.Fixable g x) (hfar : w.IsFar f = true)
    (hv : w.areaOf f = some v) : c.code (w.slotOf f) = g.code (w.slotOf f) := by
  have hf : f ∈ w.labelFixups := hsplit ▸ List.mem_append_right _ List.mem_cons_self
  obtain ⟨i, hi, heq⟩ := slotOf_mem h hf hfar hv
  refine hd.unchanged _ fun x hx => ⟨?_, fun hfar' hslot => ?_⟩
  · rw [heq]
    exact slot_ne_off h (mem_of_areaOf hv).1 hi (hsplit ▸ List.mem_append_left _ hx)
  · obtain ⟨-, -, -, hslotted⟩ := hdone x hx
    obtain ⟨⟨⟨v', hv'⟩, -⟩, -⟩ := hslotted hfar'
    obtain rfl := slotOf_inj h hf (hsplit ▸ List.mem_append_left _ hx) hfar hfar' hv hv' hslot
    rw [← filter_lt h hsplit, List.mem_filter] at hx
    simpa using hx.2

/-- The word of a branch is none that is empty. -/
theorem PassedIn.not_isZero (h : Inv start w) (hp : Patched w g) (hd : PassedIn w g c done (f :: rest))
    (hsplit : w.labelFixups = done ++ f :: rest) (hdone : ∀ x ∈ done, w.Fixable g x) :
      isZero (c.code f.off) = false := by
  obtain ⟨t, ht, -⟩ := (h.fixup f (hsplit ▸ List.mem_append_right _ List.mem_cons_self)).branch
  rw [hd.code_off h hp hsplit hdone, ht]
  rfl

/-- **A branch that can be filled in** is. -/
theorem PassedIn.step (h : Inv start w) (hp : Patched w g) (hd : PassedIn w g c done (f :: rest))
    (hsplit : w.labelFixups = done ++ f :: rest) (hdone : ∀ x ∈ done, w.Fixable g x) (hfix : w.Fixable g f) :
    ∃ c', c.handleFixup f = some c' ∧ PassedIn w g c' (done ++ [f]) rest := by
  have hf : f ∈ w.labelFixups := hsplit ▸ List.mem_append_right _ List.mem_cons_self
  obtain ⟨l, hl, hdist, hslot⟩ := hfix
  obtain ⟨hlt, -, -, -⟩ := target_spec h hf hl
  obtain ⟨t, ht, hkind⟩ := (h.fixup f hf).branch
  have hl' : c.target f = some l := (hd.target_eq f).trans hl
  have hrange : f.off ≤ l ∧ l - f.off < 128 * 1024 * 1024 := ⟨hlt.le, hdist⟩
  have hsame (hnear : w.IsFar f = false) : c.veneers = w.veneers.map fun v =>
    v + 4 * w.farIn v (done ++ [f]) := by
    rw [hd.veneers]
    refine List.map_congr_left fun v _ => ?_
    rw [farIn_append]
    simp [farIn, hnear]
  cases hcond : f.kind.isCond with
  | true =>
    cases hfar : w.IsFar f with
    | true =>
      obtain ⟨⟨⟨v, hv⟩, hused⟩, hzero⟩ := hslot hfar
      obtain ⟨-, l', hl₂, hreach⟩ := isFar_iff.mp hfar
      obtain rfl := Option.some.inj (hl.symm.trans hl₂)
      have hne : f.off ≠ w.slotOf f := by
        obtain ⟨i, hi, heq⟩ := slotOf_mem h hf hfar hv
        rw [heq]
        exact (slot_ne_off h (mem_of_areaOf hv).1 hi hf).symm
      obtain ⟨c', hc', hcode, hlabels, hveneers, hcount⟩ :=
        handleFixup_far h hd.toPassed hcond hl' hrange (by omega)
        (takeSlot_eq h hd.toPassed hsplit hused hfar
          hv) (by rw [hd.code_slot h hsplit hdone hfar hv, hzero]) hne
        ((hd.code_off h hp hsplit hdone).trans ht)
      refine ⟨c', hc', hd.next hlabels hveneers (fun p hoff hslot => ?_) hcount.1 hcount.2⟩
      rw [hcode, Function.update_of_ne hoff, Function.update_of_ne (hslot hfar)]
    | false =>
      have hreach : ¬ f.kind.reach ≤ l - f.off := by
        simp only [IsFar, hcond, hl, Option.any_some, Bool.true_and, decide_eq_false_iff_not] at hfar
        omega
      obtain ⟨c₁, hc₁, hcode₁, hlabels₁, hveneers₁, hcond₁, htest₁⟩ := countDown_spec h hd.toPassed
      refine ⟨{ c₁ with
        code := Function.update c₁.code f.off (fillDist f.kind.nbits (l - f.off) (c₁.code f.off)) }, ?_,
        hd.next hlabels₁ (hveneers₁.trans (hsame hfar)) (fun p hoff _ => ?_) hcond₁ htest₁⟩
      · rw [handleFixup_cond hcond hl', hc₁, Option.bind_some, fixCondbr, if_pos hrange, if_neg hreach]
      · dsimp only
        rw [Function.update_of_ne hoff, hcode₁]
  | false =>
    have hbr : f.kind = .br := by
      rw [hkind] at hcond ⊢
      cases t <;> first | rfl | cases hcond
    have hnear : w.IsFar f = false := by rw [IsFar, hcond, Bool.false_and]
    have hcount := hd.condBrs
    have htests := hd.testBrs
    rw [unresolved_cons] at hcount htests
    refine ⟨{ c with
      code := Function.update c.code f.off ((encode .always ((l - f.off) / 4 : ℕ)).getD (.data 0)) }, ?_,
      hd.next rfl (hsame hnear)
        (fun p hoff _ => Function.update_of_ne hoff ..) (by dsimp only; omega) (by dsimp only; omega)⟩
    rw [handleFixup, hl', Option.bind_eq_bind, Option.bind_some, hbr]
    exact if_pos hrange

/-- A branch that is filled in can be. -/
theorem PassedIn.fixable (h : Inv start w) (hp : Patched w g) (hd : PassedIn w g c done (f :: rest))
    (hsplit : w.labelFixups = done ++ f :: rest) (hdone : ∀ x ∈ done,
      w.Fixable g x) (hc' : c.handleFixup f = some c') :
    w.Fixable g f := by
  have hf : f ∈ w.labelFixups := hsplit ▸ List.mem_append_right _ List.mem_cons_self
  obtain ⟨l, hl', hrest⟩ := Option.bind_eq_some_iff.mp hc'
  have hl : w.target f = some l := (hd.target_eq f).symm.trans hl'
  obtain ⟨t, ht, hkind⟩ := (h.fixup f hf).branch
  cases hcond : f.kind.isCond with
  | true =>
    obtain ⟨c₁, hc₁, hcode₁, -, hveneers₁, -⟩ := countDown_spec h hd.toPassed
    rw [handleFixup_cond hcond hl', hc₁, Option.bind_some, fixCondbr] at hc'
    obtain ⟨hrange, hc'⟩ := Option.ite_none_right_eq_some.mp hc'
    refine ⟨l, hl, hrange.2, fun hfar => ?_⟩
    obtain ⟨-, l', hl₂, hreach⟩ := isFar_iff.mp hfar
    obtain rfl := Option.some.inj (hl.symm.trans hl₂)
    rw [if_pos (by omega), hveneers₁] at hc'
    obtain ⟨⟨p, vs⟩, htake, hc'⟩ := Option.bind_eq_some_iff.mp hc'
    obtain ⟨hzero, -⟩ := Option.ite_none_right_eq_some.mp hc'
    rw [hcode₁] at hzero
    have hne : f.off ≠ p := by
      rintro rfl
      rw [hd.not_isZero h hp hsplit hdone] at hzero
      cases hzero
    obtain ⟨⟨v, hv⟩, hused⟩ := slotted_of_takeSlot h hd.toPassed hsplit htake hne
    obtain ⟨rfl, -⟩ :=
      Prod.mk.inj (Option.some.inj (htake.symm.trans (takeSlot_eq h hd.toPassed hsplit hused hfar hv)))
    exact ⟨⟨⟨v, hv⟩, hused⟩, by rw [← hd.code_slot h hsplit hdone hfar hv, hzero]⟩
  | false =>
    have hbr : f.kind = .br := by
      rw [hkind] at hcond ⊢
      cases t <;> first | rfl | cases hcond
    rw [hbr] at hrest
    obtain ⟨hrange, -⟩ := Option.ite_none_right_eq_some.mp hrest
    refine ⟨l, hl, hrange.2, fun hfar => ?_⟩
    rw [IsFar, hcond] at hfar
    cases hfar

theorem PassedIn.run_iff (h : Inv start w) (hp : Patched w g) :
    ∀ {rest done : List LabelFixup} {c : FunctionWriterA64 Op}, PassedIn w g c done rest →
      w.labelFixups = done ++ rest →
      (∀ x ∈ done, w.Fixable g x) → ((rest.foldlM handleFixup c).isSome ↔ ∀ f ∈ rest, w.Fixable g f)
  | [], _, c, _, _, _ => iff_of_true rfl nofun
  | f :: rest, done, c, hd, hsplit, hdone => by
    by_cases hfix : w.Fixable g f
    · obtain ⟨c', hc', hd'⟩ := hd.step h hp hsplit hdone hfix
      rw [List.foldlM_cons, hc', Option.bind_eq_bind, Option.bind_some, List.forall_mem_cons,
        and_iff_right hfix]
      refine hd'.run_iff h hp (by rw [hsplit, List.append_assoc, List.singleton_append]) ?_
      exact List.forall_mem_append.mpr ⟨hdone, List.forall_mem_singleton.mpr hfix⟩
    · refine iff_of_false (fun hrun => hfix ?_) fun hall => hfix (hall f List.mem_cons_self)
      obtain ⟨c'', hrun⟩ := Option.isSome_iff_exists.mp hrun
      obtain ⟨c', hc', -⟩ := Option.bind_eq_some_iff.mp hrun
      exact hd.fixable h hp hsplit hdone hc'

/-- **All fixups of a text that is written over are handled** if and only if every branch can be filled in. -/
theorem handleFixups_isSome_iff (h : Inv start w) (hp : Patched w g) :
    g.handleFixups.isSome ↔ ∀ f ∈ w.labelFixups, w.Fixable g f := by
  rw [handleFixups, hp.labelFixups]
  exact (passedIn_nil h hp).run_iff h hp rfl nofun

end

end Tpde.Assembler.FunctionWriterA64
