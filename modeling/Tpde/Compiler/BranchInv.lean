import Tpde.Compiler.EventInv

/-!
# What the end of a block keeps

Registers are spilled before the branch, values are moved to the phis behind it, and the
registers that the next block must not rely on are freed.
-/

namespace Tpde.Values

open RegMachine

/-! ### The branch -/

/-- A value that stays where it is, but that its slot may become valid. -/
def Stays (P : Val → Prop) (v : Val) (a a' : Assignment) : Prop :=
  a' = a ∨ P v ∧ a.fixed = false ∧ a.variableRef = false ∧ a' = { a with stackValid := true }

/-- A value that may lose its register where it has another home. -/
def Drops (_ : Val) (a a' : Assignment) : Prop :=
  a' = a ∨ a.fixed = false ∧ (a.stackValid ∨ a.variableRef) ∧ a' = { a with reg := none }

theorem Stays.grows {P : Val → Prop} {v : Val} {a a' : Assignment} (h : Stays P v a a') : Grows a a' := by
  rcases h with rfl | ⟨-, -, -, rfl⟩
  · exact .refl _
  · exact ⟨rfl, rfl, rfl, rfl, rfl, fun _ => rfl, fun _ => rfl, fun _ => .inr (.inl rfl)⟩

theorem Stays.reg {P : Val → Prop} {v : Val} {a a' : Assignment} (h : Stays P v a a') : a'.reg = a.reg := by
  rcases h with rfl | ⟨-, -, -, rfl⟩ <;> rfl

theorem Stays.stackValid {P : Val → Prop} {v : Val} {a a' : Assignment} (h : Stays P v a a')
    (hs : a'.stackValid) : a.stackValid ∨ P v := by
  rcases h with rfl | ⟨hP, -, -, rfl⟩
  · exact .inl hs
  · exact .inr hP

theorem Stays.trans {P : Val → Prop} {v : Val} {a a' a'' : Assignment} (h : Stays P v a a')
    (h' : Stays P v a' a'') : Stays P v a a'' := by
  rcases h with rfl | ⟨hP, hf, hv, rfl⟩
  · exact h'
  · rcases h' with rfl | ⟨-, -, -, rfl⟩
    · exact .inr ⟨hP, hf, hv, rfl⟩
    · exact .inr ⟨hP, hf, hv, rfl⟩

theorem Drops.grows {v : Val} {a a' : Assignment} (h : Drops v a a') : Grows a a' := by
  rcases h with rfl | ⟨hf, hs, rfl⟩
  · exact .refl _
  · refine ⟨rfl, rfl, rfl, rfl, rfl, by simp [hf], id, fun _ => .inr hs⟩

theorem Drops.reg {v : Val} {a a' : Assignment} {r : Reg} (h : Drops v a a') (hr : a'.reg = some r) :
    a' = a := by
  rcases h with rfl | ⟨-, -, rfl⟩
  · rfl
  · cases hr

theorem Drops.trans {v : Val} {a a' a'' : Assignment} (h : Drops v a a') (h' : Drops v a' a'') :
    Drops v a a'' := by
  rcases h with rfl | ⟨hf, hs, rfl⟩
  · exact h'
  · rcases h' with rfl | ⟨-, -, rfl⟩
    · exact .inr ⟨hf, hs, rfl⟩
    · exact .inr ⟨hf, hs, rfl⟩

section
variable {arch : Arch} {s s' : St}

/-- `free_reg` where it succeeds. -/
theorem Good.freeReg (h : Good arch s) {r : Reg} (hok : s.freeReg r = .ok s') :
    Goes arch Drops [] s s' ∧ s'.code = s.code ∧ s'.used r = none ∧ ∀ v, s.val v = none →
      s'.val v = none := by
  rw [St.freeReg] at hok
  cases hu : s.used r with
  | none => simp [hu] at hok
  | some o =>
    cases o with
    | none => simp [hu] at hok
    | some v =>
      cases ha : s.val v with
      | none => simp [hu, ha] at hok
      | some a =>
        simp only [hu, ha] at hok
        split at hok
        swap
        · cases hok
        rename_i hc
        obtain ⟨hlock, hr, hhome⟩ := hc
        rw [Bool.or_eq_true] at hhome
        have hf := h.not_fixed ha hr hlock
        simp only [St.setVal, St.unmarkUsed, hu, hlock, ne_eq, reduceCtorEq, not_false_eq_true,
          and_self, if_true] at hok
        obtain rfl := Except.ok.inj hok
        have hx : ∀ b, some { a with reg := none } = some b → b.reg = none ∧ b.fixed = false :=
          fun b hb => Option.some.inj hb ▸ ⟨rfl, hf⟩
        refine ⟨.update h ?_ ha rfl (fun hs => ⟨hs.bits, hs.fixed, hs.varRef, hs.stackVariable⟩)
          (.inr ⟨hf, hhome, rfl⟩) (fun _ _ => .inl rfl)
          (List.prefix_refl _), rfl, Function.update_self .., fun w hw =>
            (Function.update_of_ne (ne_of_val ha hw) ..).trans hw⟩
        exact h.regs.vacate ha hr (by simp) (.inl ⟨rfl, by rw [← hlock, Function.update_eq_self], rfl⟩)
          hx rfl rfl (Nat.sub_le ..) le_rfl

/-- Where no value is new, each was there before. -/
theorem Goes.back {R : Val → Assignment → Assignment → Prop} (h : Goes arch R [] s s')
    (hnone : ∀ v, s.val v = none → s'.val v = none)
    {v : Val} {a' : Assignment} (ha' : s'.val v = some a') : ∃ a, s.val v = some a ∧ R v a a' := by
  cases ha : s.val v with
  | none => simp [hnone v ha] at ha'
  | some a =>
    obtain ⟨b, hb, hr⟩ := h.keeps v a ha (by simp)
    exact ⟨a, rfl, Option.some.inj (hb.symm.trans ha') ▸ hr⟩

/-- Registers that are used are freed, but for the locked ones. -/
theorem Good.freeEach (h : Good arch s) {regs : List Reg}
    (hok : regs.foldlM (fun s r => if s.locks r = 0 then s.freeReg r else .ok s) s = .ok s') :
    Goes arch Drops [] s s' ∧ s'.code = s.code ∧ (∀ v, s.val v = none → s'.val v = none) ∧
      ∀ v a r, r ∈ regs → s'.val v = some a → a.reg = some r → a.fixed := by
  induction regs generalizing s with
  | nil =>
    obtain rfl := Except.ok.inj hok
    exact ⟨.refl h fun _ _ => .inl rfl, rfl, fun _ => id, by simp⟩
  | cons r regs ih =>
    rw [List.foldlM_cons, bind_eq_ok] at hok
    obtain ⟨s₁, hfree, hok⟩ := hok
    have hstep : Goes arch Drops [] s s₁ ∧ s₁.code = s.code ∧ (∀ v, s.val v = none → s₁.val v = none) ∧
        ∀ v a, s₁.val v = some a → a.reg = some r → a.fixed := by
      split at hfree
      · obtain ⟨hgo, hcode, hu, hnone⟩ := h.freeReg hfree
        refine ⟨hgo, hcode, hnone, fun v a ha hr => ?_⟩
        have := hgo.good.regs.used_eq ha hr
        rw [hu] at this
        cases this
      · rename_i hlock
        obtain rfl := Except.ok.inj hfree
        refine ⟨.refl h fun _ _ => .inl rfl, rfl, fun _ => id, fun v a ha hr => ?_⟩
        rw [h.locks_eq ha hr] at hlock
        by_contra hf
        exact hlock (if_neg hf)
    obtain ⟨hgo₁, hcode₁, hnone₁, hfix₁⟩ := hstep
    obtain ⟨hgo, hcode, hnone, hfix⟩ := ih hgo₁.good hok
    refine ⟨Goes.trans (R := Drops) (fun _ _ _ _ hd hd' => hd.trans hd') hgo₁ hgo, hcode.trans hcode₁,
      fun v hv => hnone v (hnone₁ v hv),
      fun v a r' hmem ha hr => ?_⟩
    rcases List.mem_cons.mp hmem with rfl | hmem
    · obtain ⟨a₁, ha₁, hd⟩ := hgo.back hnone ha
      obtain rfl := hd.reg hr
      exact hfix₁ v a ha₁ hr
    · exact hfix v a r' hmem ha hr

/-- Freeing registers: what has one of them behind it is fixed. -/
theorem Good.freeRegs (h : Good arch s) {regs : List Reg} (hok : s.freeRegs regs = .ok s') :
    Goes arch Drops [] s s' ∧ s'.code = s.code ∧ (∀ v, s.val v = none → s'.val v = none) ∧
      ∀ v a r, r ∈ regs → s'.val v = some a → a.reg = some r → a.fixed := by
  obtain ⟨hgo, hcode, hnone, hfix⟩ := h.freeEach hok
  refine ⟨hgo, hcode, hnone, fun v a r hmem ha hr => hfix v a r (List.mem_filter.mpr ⟨hmem, ?_⟩) ha hr⟩
  obtain ⟨b, hb, hd⟩ := hgo.back hnone ha
  obtain rfl := hd.reg hr
  simp [h.regs.used_eq hb hr]

end

/-! ### The spills -/

section
variable {F : Flow} {arch : Arch} {s s' : St} {cur : ℕ}

/-- Where a value is needed in memory, it is not there. -/
theorem needsSpill_stays {v : Val} {a a' : Assignment} (h : Stays (fun _ => True) v a a')
    (hn : F.needsSpill cur v a = false) :
    F.needsSpill cur v a' = false := by
  rcases h with rfl | ⟨-, -, -, rfl⟩
  · exact hn
  · simp [Flow.needsSpill]

/-- A value that is needed in memory is stored. -/
theorem Good.spill (h : Good arch s) {v : Val} {a : Assignment} {r : Reg} (ha : s.val v = some a)
    (hr : a.reg = some r)
    (hf : a.fixed = false) (hn : F.needsSpill cur v a = true) :
    Goes arch (Stays fun _ => True) [] s (s.spill v a r) ∧ Carries arch s (s.spill v a r) ∧
      (s.spill v a r).used = s.used ∧
      (∀ w, s.val w = none → (s.spill v a r).val w = none) ∧
      ∀ b, (s.spill v a r).val v = some b → F.needsSpill cur v b = false := by
  have hmem : a.stackValid = false ∧ a.variableRef = false := by
    rw [Flow.needsSpill] at hn
    split at hn
    · cases hn
    · rename_i hc
      simpa using hc
  have hs : s.spill v a r = (s.emit (.spill v r a.bits)).setVal v { a with stackValid := true } := by
    simp [St.spill, hmem.1, hmem.2]
  have hval : (s.spill v a r).val = Function.update s.val v (some { a with stackValid := true }) := by
    rw [hs]; rfl
  have hcode : (s.spill v a r).code = s.code ++ [.spill v r a.bits] := by rw [hs]; rfl
  have hregs : Regs arch (s.spill v a r) 0 :=
    h.regs.setVal (b := { a with
      stackValid := true }) ha rfl rfl (by rw [hs]; rfl) (by rw [hs]; rfl) hval (by rw [hs]; rfl)
  refine ⟨.update h hregs ha hval
    (fun hsane => ⟨hsane.bits, by simp [hf], by simp [hmem.2], hsane.stackVariable⟩)
    (.inr ⟨trivial, hf, hmem.2, rfl⟩) (fun _ _ => .inl rfl) (hcode ▸ List.prefix_append ..),
      fun L m σ hh => ?_, by rw [hs]; rfl,
    fun w hw => ?_, fun b hb => ?_⟩
  · rw [St.after_of_append hcode]
    have hstore :
      HomesOn arch L (s.spill v a r)
      (run Op.eval m (if !a.stackValid && !a.variableRef then [.spill v r a.bits] else [])) σ :=
      hh.store (b := a) ha hr (by simp [hval, hmem.2]) (.inl rfl)
    simpa [hmem.1, hmem.2] using hstore
  · rw [hval, Function.update_of_ne (ne_of_val ha hw), hw]
  · rw [hval, Function.update_self] at hb
    obtain rfl := Option.some.inj hb
    simp [Flow.needsSpill]

/-- Going through some registers before a branch: what was in one of them is not needed in
memory any more, and is released if the next block must not rely on it. -/
structure Spilled (F : Flow) (arch : Arch) (cur : ℕ) (regs : List Reg) (i i' : List Reg × St) : Prop where
  goes : Goes arch (Stays fun _ => True) [] i.2 i'.2
  carries : Carries arch i.2 i'.2
  none : ∀ v, i.2.val v = none → i'.2.val v = none
  stored : ∀ v a r, r ∈ regs → i'.2.val v = some a → a.reg = some r → a.fixed = false →
    F.needsSpill cur v a = false
  released : F.mustSpill cur → ∀ v a r, r ∈ regs → i'.2.val v = some a → a.reg = some r →
    a.fixed = false → r ∈ i'.1
  more : i.1 ⊆ i'.1
  same : F.mustSpill cur = false → i'.1 = i.1

theorem Spilled.nil {i : List Reg × St} (h : Good arch i.2) : Spilled F arch cur [] i i :=
  ⟨.refl h fun _ _ => .inl rfl, .refl arch _, fun _ => id, by simp, by simp, List.Subset.refl _, fun _ => rfl⟩

theorem Spilled.append {regs regs' : List Reg} {i i' i'' : List Reg × St} (h : Spilled F arch cur regs i i')
    (h' : Spilled F arch cur regs' i' i'') : Spilled F arch cur (regs ++ regs') i i'' where
  goes := Goes.trans (R := Stays fun _ => True) (fun _ _ _ _ hs hs' => hs.trans hs') h.goes h'.goes
  carries := h.carries.trans h.goes.code h'.goes.code h'.carries
  none v hv := h'.none v (h.none v hv)
  stored v a r hr ha har hf := by
    rcases List.mem_append.mp hr with hr | hr
    · obtain ⟨b, hb, hs⟩ := h'.goes.back h'.none ha
      exact needsSpill_stays hs (h.stored v b r hr hb (hs.reg ▸ har) (hs.grows.fixed ▸ hf))
    · exact h'.stored v a r hr ha har hf
  released hm v a r hr ha har hf := by
    rcases List.mem_append.mp hr with hr | hr
    · obtain ⟨b, hb, hs⟩ := h'.goes.back h'.none ha
      exact h'.more (h.released hm v b r hr hb (hs.reg ▸ har) (hs.grows.fixed ▸ hf))
    · exact h'.released hm v a r hr ha har hf
  more := List.Subset.trans h.more h'.more
  same hm := (h'.same hm).trans (h.same hm)

/-- What is done with one register. -/
theorem Good.spillReg {i : List Reg × St} (h : Good arch i.2) (r : Reg) :
    Spilled F arch cur [r] i (F.spillReg cur i r) := by
  -- a part that is in the register is the one that the register is marked with
  have mine {s' : St} {v : Val} {a : Assignment} {r' : Reg} (hs' : Good arch s') (hr : r' ∈ [r])
    (ha : s'.val v = some a)
      (har : a.reg = some r') : s'.used r = some (some v) :=
        List.mem_singleton.mp hr ▸ hs'.regs.used_eq ha har
  have skip (hno : ∀ v a, i.2.used r = some (some v) → i.2.val v = some a → a.fixed) :
    Spilled F arch cur [r] i i := by
    refine ⟨.refl h fun _ _ => .inl rfl, .refl arch _, fun _ => id, fun v a r' hr ha har hf => ?_,
      fun _ v a r' hr ha har hf => ?_,
      List.Subset.refl _, fun _ => rfl⟩
    all_goals
      have := hno v a (mine h hr ha har) ha
      simp [hf] at this
  rw [Flow.spillReg]
  split
  swap
  · rename_i hu
    exact skip fun v a hu' => absurd hu' (hu v)
  rename_i v hu
  split
  swap
  · rename_i ha
    exact skip fun w a hw hb => by
      obtain rfl := Option.some.inj (Option.some.inj (hu.symm.trans hw))
      simp [ha] at hb
  rename_i a ha
  split
  · rename_i hf
    exact skip fun w b hw hb => by
      obtain rfl := Option.some.inj (Option.some.inj (hu.symm.trans hw))
      exact Option.some.inj (ha.symm.trans hb) ▸ hf
  rename_i hf
  have hf : a.fixed = false := by simpa using hf
  have hreg : a.reg = some r := (St.regOf_eq ha).symm.trans ((h.regs.owner r v).mp hu)
  have hgood : ∃ s', (if F.needsSpill cur v a then i.2.spill v a r else i.2) = s' ∧
    Goes arch (Stays fun _ => True) [] i.2 s' ∧
      Carries arch i.2 s' ∧ s'.used = i.2.used ∧ (∀ w, i.2.val w = none → s'.val w = none) ∧
      ∀ b, s'.val v = some b → F.needsSpill cur v b = false := by
    refine ⟨_, rfl, ?_⟩
    split
    · rename_i hn
      exact h.spill ha hreg hf hn
    · rename_i hn
      refine ⟨.refl h fun _ _ => .inl rfl, .refl arch _, rfl, fun _ => id, fun b hb => ?_⟩
      simpa [Option.some.inj (ha.symm.trans hb)] using hn
  obtain ⟨s', hs', hgo, hcar, hused, hnone, hstored⟩ := hgood
  rw [hs']
  refine ⟨hgo, hcar, hnone, fun w b r' hr hb hbr _ => ?_, fun hm w b r' hr _ _ _ => ?_, ?_, fun hm => ?_⟩
  · have hw := mine hgo.good hr hb hbr
    rw [hused, hu] at hw
    obtain rfl := Option.some.inj (Option.some.inj hw)
    exact hstored b hb
  · rw [List.mem_singleton.mp hr]
    simp [hm]
  · dsimp only
    split <;> simp
  · simp [hm]

theorem Good.spillRegs {i : List Reg × St} (h : Good arch i.2) (regs : List Reg) :
    Spilled F arch cur regs i (regs.foldl (F.spillReg cur) i) := by
  induction regs generalizing i with
  | nil => exact .nil h
  | cons r regs ih =>
    have hstep : Spilled F arch cur [r] i (F.spillReg cur i r) := h.spillReg r
    exact hstep.append (ih hstep.goes.good)

end

section
variable {F : Flow} {cur : ℕ}

/-- What is known when some successors have been gone through. -/
structure Scanned (F : Flow) (cur : ℕ) (ts : List ℕ) (i : Succs) : Prop where
  nextIsSucc : i.nextIsSucc = true ↔ cur + 1 ∈ ts
  nextMultiple : i.nextMultiple = true ↔ cur + 1 ∈ ts ∧ F.multipleIncoming (cur + 1) = true
  count : i.count = ts.length
  earliest : ∀ t ∈ ts, cur + 1 < t → ∃ e, i.earliest = some e ∧ e ≤ t

theorem Scanned.snoc {ts : List ℕ} {i : Succs} (h : Scanned F cur ts i) (t : ℕ) :
    Scanned F cur (ts ++ [t]) (F.scanSucc cur i t) := by
  obtain ⟨hnext, hmult, hcount, hearliest⟩ := h
  rw [Flow.scanSucc]
  split
  · rename_i ht
    subst ht
    refine ⟨by simp, ?_, by simp [hcount], fun t' ht' hlt => ?_⟩
    · simp only [Bool.or_eq_true, hmult, List.mem_append, List.mem_singleton, or_true, true_and]
      tauto
    rcases List.mem_append.mp ht' with ht' | ht'
    · exact hearliest t' ht' hlt
    · rw [List.mem_singleton] at ht'
      omega
  rename_i hne
  have hmem : cur + 1 ∈ ts ++ [t] ↔ cur + 1 ∈ ts := by
    rw [List.mem_append, List.mem_singleton]
    exact or_iff_left (Ne.symm hne)
  split
  · rename_i hc
    refine ⟨by rw [hmem]; exact hnext, by rw [hmem]; exact hmult, by simp [hcount],
      fun t' ht' hlt => ⟨t, rfl, ?_⟩⟩
    rcases List.mem_append.mp ht' with ht' | ht'
    · obtain ⟨e, he, hle⟩ := hearliest t' ht' hlt
      have hte : t < e := by simpa [he] using hc.2
      omega
    · exact (List.mem_singleton.mp ht').ge
  · rename_i hc
    refine ⟨by rw [hmem]; exact hnext, by rw [hmem]; exact hmult, by simp [hcount], fun t' ht' hlt => ?_⟩
    rcases List.mem_append.mp ht' with ht' | ht'
    · exact hearliest t' ht' hlt
    · rw [List.mem_singleton] at ht'
      subst ht'
      -- a successor that is not the earliest has an earlier one before it
      cases he : i.earliest with
      | none => exact absurd ⟨by omega, by simp [he]⟩ hc
      | some e => exact ⟨e, rfl, by
          by_contra hle
          exact hc ⟨by omega, by simpa [he] using hle⟩⟩

theorem scanned : Scanned F cur (F.succs cur) (F.scanSuccs cur) := by
  rw [Flow.scanSuccs]
  induction F.succs cur using List.reverseRecOn with
  | nil => exact ⟨by simp, by simp, rfl, by simp⟩
  | append_singleton ts t ih =>
    rw [List.foldl_append]
    exact ih.snoc t

theorem mustSpill_eq_false : F.mustSpill cur = false ↔ cur + 1 ∈ F.succs cur ∧
    F.multipleIncoming (cur + 1) = false := by
  have h : Scanned F cur (F.succs cur) (F.scanSuccs cur) := scanned
  rw [Flow.mustSpill, Bool.or_eq_false_iff, Bool.not_eq_false', h.nextIsSucc, ← Bool.not_eq_true,
    h.nextMultiple]
  simp +contextual

end

section
variable {F : Flow} {c : Config} {s s' : St} {cur : ℕ}

/-- What is known behind the spills: what a successor needs that is not compiled next is not
only in a register. -/
structure Branched (F : Flow) (arch : Arch) (cur : ℕ) (s : St) (i : List Reg × St) : Prop where
  goes : Goes arch (Stays fun _ => True) [] s i.2
  carries : Carries arch s i.2
  none : ∀ v, s.val v = none → i.2.val v = none
  released : F.mustSpill cur → ∀ v a r, i.2.val v = some a → a.reg = some r → a.fixed = false → r ∈ i.1
  same : F.mustSpill cur = false → i.1 = []
  stored : ∀ t ∈ F.succs cur, cur < t → (t = cur + 1 → F.mustSpill cur) → ∀ v a r, i.2.val v = some a →
    a.reg = some r → a.fixed = false →
    t ≤ F.last v → a.stackValid ∨ a.variableRef

/-- `spill_before_branch`. -/
theorem Good.spillBeforeBranch (h : Good c.arch s) (cur : ℕ) :
    Branched F c.arch cur s (F.spillBeforeBranch c s cur) := by
  have hscan : Scanned F cur (F.succs cur) (F.scanSuccs cur) := scanned
  rw [Flow.spillBeforeBranch]
  split
  · rename_i hc
    have hnext := (mustSpill_eq_false.mp hc.2).1
    obtain ⟨t', ht'⟩ := List.length_eq_one_iff.mp (hscan.count.symm.trans hc.1)
    refine ⟨.refl h fun _ _ => .inl rfl, .refl _ _, fun _ => id, by simp [hc.2], fun _ => rfl,
      fun t ht _ hm => ?_⟩
    rw [ht', List.mem_singleton] at ht hnext
    simp [hc.2, ht, hnext] at hm
  · have hall : Spilled F c.arch cur (c.arch.allocatable.filter fun r => s.used r ≠ none) ([], s)
        ((c.arch.allocatable.filter fun r => s.used r ≠ none).foldl (F.spillReg cur) ([], s)) :=
          Good.spillRegs h _
    generalize (c.arch.allocatable.filter fun r => s.used r ≠ none).foldl (F.spillReg cur) ([], s) =
      i at hall ⊢
    -- every register of a value was gone through
    have hmem {v : Val} {a : Assignment} {r : Reg} (ha : i.2.val v = some a) (hr : a.reg = some r) :
        r ∈ c.arch.allocatable.filter fun r => s.used r ≠ none := by
      obtain ⟨b, hb, hs⟩ := hall.goes.back hall.none ha
      have hu := h.regs.used_eq hb (hs.reg ▸ hr)
      exact List.mem_filter.mpr ⟨h.regs.usable r (by simp [hu]), by simp [hu]⟩
    refine ⟨hall.goes, hall.carries, hall.none,
      fun hm v a r ha hr hf => hall.released hm v a r (hmem ha hr) ha hr hf, hall.same,
      fun t ht hlt hm v a r ha hr hf hlast => ?_⟩
    have hn := hall.stored v a r (hmem ha hr) ha hr hf
    rw [Flow.needsSpill] at hn
    split at hn
    · rename_i hhome
      simpa using hhome
    rw [if_neg (by omega), Bool.or_eq_false_iff] at hn
    by_cases hnext : t = cur + 1
    · simp [hm hnext] at hn
    · obtain ⟨e, he, hle⟩ := hscan.earliest t ht (by omega)
      simp [he] at hn
      omega

end

/-! ### The moves -/

theorem Stays.mono {P Q : Val → Prop} {v : Val} {a a' : Assignment} (h : Stays P v a a')
    (hPQ : P v → Q v) : Stays Q v a a' := by
  rcases h with rfl | ⟨hP, h⟩
  · exact .inl rfl
  · exact .inr ⟨hPQ hP, h⟩

section
variable {F : Flow} {c : Config} {s s' : St} {cur : ℕ}

/-- A move to a phi where it succeeds. -/
theorem Good.moveToPhi (hF : F.Fits c.arch) (h : Good c.arch s) {phi : Val} {a : Assignment}
    (hok : F.moveToPhi cur s phi = .ok (a, s')) :
    Good c.arch s' ∧ s'.code = s.code ∧ s'.val = Function.update s.val phi (some a) ∧
      (∀ b, s.val phi = some b → Stays (fun _ => True) phi b a) ∧
        (s.val phi = none → a.fixed = false → a.reg = none) ∧
      (F.incoming cur phi ≠ some phi → (a.fixed ∨ a.stackValid) ∧ a.variableRef = false) := by
  rw [Flow.moveToPhi, bind_eq_ok] at hok
  obtain ⟨s₁, hinit, hok⟩ := hok
  -- the phi has an assignment before the move
  have hstart : Good c.arch s₁ ∧ s₁.code = s.code ∧ ∃ b, s₁.val = Function.update s.val phi (some b) ∧
    (∀ b', s.val phi = some b' → b = b') ∧
      (s.val phi = none → b.fixed = false → b.reg = none) := by
    split at hinit
    · rename_i hnone
      obtain ⟨hg, -, hcode, b, hval, -, hfresh⟩ := h.initAssignment hF hinit
      refine ⟨hg, hcode, b, hval, by simp [hnone], fun _ hf => ?_⟩
      simpa [hf] using hfresh.reg
    · rename_i hsome
      obtain rfl := Except.ok.inj hinit
      obtain ⟨b, hb⟩ := Option.ne_none_iff_exists'.mp hsome
      exact ⟨h, rfl, b, by rw [← hb, Function.update_eq_self],
        fun b' hb' => Option.some.inj (hb.symm.trans hb'), fun hn => absurd hn hsome⟩
  obtain ⟨hg, hcode, b, hval, hold, hreg⟩ := hstart
  have hb : s₁.val phi = some b := by rw [hval, Function.update_self]
  simp only [hb] at hok
  split at hok
  · rename_i hc
    obtain ⟨rfl, rfl⟩ := Prod.mk.inj (Except.ok.inj hok)
    refine ⟨hg, hcode, hval, fun b' hb' => .inl (hold b' hb'), hreg, fun hne => ?_⟩
    have hf := hc.resolve_left hne
    exact ⟨.inl hf, ((hg.sane phi b hb).fixed hf).2⟩
  · rename_i hc
    rw [not_or] at hc
    split at hok
    · cases hok
    rename_i hvar
    obtain ⟨rfl, rfl⟩ := Prod.mk.inj (Except.ok.inj hok)
    have hf : b.fixed = false := by simpa using hc.2
    have hvar : b.variableRef = false := by simpa using hvar
    have hregs : Regs c.arch (s₁.setVal phi { b with stackValid := true }) 0 :=
      hg.regs.setVal (b := { b with stackValid := true }) hb rfl rfl rfl rfl rfl rfl
    refine ⟨hg.update hregs rfl fun b' hb' => ?_, hcode, ?_,
      fun b' hb' => .inr ⟨trivial, hold b' hb' ▸ hf, hold b' hb' ▸ hvar, by rw [hold b' hb']⟩,
      fun hn _ => hreg hn hf, fun _ => ⟨.inr rfl, hvar⟩⟩
    · obtain rfl := Option.some.inj hb'
      have hsane := hg.sane phi b hb
      exact ⟨hsane.bits, by simp [hf], by simp [hvar], hsane.stackVariable⟩
    · simp only [St.setVal, hval, Function.update_idem]

/-- The record of a phi that was moved to, as it was behind its first move. -/
structure Recorded (F : Flow) (cur : ℕ) (phis : List Val) (s : St) (homes : List (Val × Assignment))
    (s' : St) (v : Val) (a : Assignment) :
    Prop where
  mem : (v, a) ∈ homes
  sane : Sane a
  reg : a.fixed → a.reg ≠ none
  old : ∀ b, s.val v = some b →
    (∀ l₁ l₂, phis = l₁ ++ v :: l₂ → v ∉ l₁ → v ∉ l₁.flatMap (F.moveFrees cur)) → Stays (· ∈ phis) v b a
  new : s.val v = none → a.fixed = false → a.reg = none
  keeps : v ∉ phis.flatMap (F.moveFrees cur) → ∃ a', s'.val v = some a' ∧ Stays (· ∈ phis) v a a'
  home : F.incoming cur v ≠ some v → (a.fixed ∨ a.stackValid) ∧ a.variableRef = false

/-- What moves to some phis leave. -/
structure PhisMoved (F : Flow) (arch : Arch) (cur : ℕ) (phis : List Val) (s : St)
    (homes : List (Val × Assignment)) (s' : St) : Prop where
  goes : Goes arch (Stays (· ∈ phis)) (phis.flatMap (F.moveFrees cur)) s s'
  code : s'.code = s.code
  none : ∀ v, s.val v = none → v ∉ phis → s'.val v = none
  apart : ∀ h ∈ homes, ∀ v a r, s.val v = some a → a.reg = some r → v ∉ phis.flatMap (F.moveFrees cur) →
    h.2.reg = some r → h.1 = v
  record : ∀ v ∈ phis, ∃ a, Recorded F cur phis s homes s' v a
  used : ∀ v a r, s'.val v = some a → a.reg = some r → a.fixed = false → ∃ b, s.val v = some b ∧
    b.reg = some r ∧ b.fixed = false

/-- The moves to the phis of the successors. -/
theorem Good.moveToPhis (hF : F.Fits c.arch) (h : Good c.arch s) {phis : List Val}
    {homes : List (Val × Assignment)}
    (hok : F.moveToPhis cur s phis = .ok (homes, s')) : PhisMoved F c.arch cur phis s homes s' := by
  induction phis generalizing s homes with
  | nil =>
    obtain ⟨rfl, rfl⟩ := Prod.mk.inj (Except.ok.inj hok)
    exact ⟨.refl h fun _ _ => .inl rfl, rfl, fun _ hv _ => hv, by simp, by simp,
      fun v a r ha hr hf => ⟨a, ha, hr, hf⟩⟩
  | cons phi phis ih =>
    rw [Flow.moveToPhis, bind_eq_ok] at hok
    obtain ⟨⟨a, s₁⟩, hmove, hok⟩ := hok
    dsimp only at hok
    rw [bind_eq_ok] at hok
    obtain ⟨s₂, hfrees, hok⟩ := hok
    rw [bind_eq_ok] at hok
    obtain ⟨⟨homes', s₃⟩, hrest, hok⟩ := hok
    obtain ⟨rfl, rfl⟩ := Prod.mk.inj (Except.ok.inj hok)
    obtain ⟨hg₁, hcode₁, hval₁, hold, hreg, hhome⟩ := h.moveToPhi hF hmove
    obtain ⟨hgo₂, hcode₂, hnone₂⟩ := hg₁.frees hfrees
    have hrec := ih hgo₂.good hrest
    have ha : s₁.val phi = some a := by rw [hval₁, Function.update_self]
    have hother {v : Val} (hv : v ≠ phi) : s₁.val v = s.val v := by rw [hval₁, Function.update_of_ne hv]
    have hmem {v : Val} (hv : v ∉ (phi :: phis).flatMap (F.moveFrees cur)) :
        v ∉ F.moveFrees cur phi ∧ v ∉ phis.flatMap (F.moveFrees cur) := by
      rwa [List.flatMap_cons, List.mem_append, not_or] at hv
    have hstay {v : Val} {b : Assignment} (hb : s₁.val v = some b) (hv : v ∉ F.moveFrees cur phi) :
      s₂.val v = some b := by
      obtain ⟨b', hb', rfl⟩ := hgo₂.keeps v b hb hv
      exact hb'
    have hmono {v : Val} {b b' : Assignment} (hs : Stays (· ∈ phis) v b b') :
      Stays (· ∈ phi :: phis) v b b' :=
      hs.mono (List.mem_cons_of_mem _)
    have hgo₁ : Goes c.arch (Stays (· ∈ phi :: phis)) [] s s₁ := by
      refine ⟨hg₁, fun v b hb _ => ?_, hcode₁ ▸ List.prefix_refl _⟩
      by_cases hv : v = phi
      · subst hv
        exact ⟨a, ha, (hold b hb).mono fun _ => List.mem_cons_self⟩
      · exact ⟨b, (hother hv).trans hb, .inl rfl⟩
    refine ⟨?_, hrec.code.trans (hcode₂.trans hcode₁), fun v hv hvp => ?_,
      fun p hp v b r hb hbr hv hpr => ?_, fun v hv => ?_,
      fun v b r hb hbr hf => ?_⟩
    · have hgo := Goes.trans (R := Stays (· ∈ phi :: phis)) (fun _ _ _ _ hs hs' => hs.trans hs') hgo₁
        (Goes.trans (R := Stays (· ∈ phi :: phis)) (fun _ _ _ _ hs hs' => hs.trans hs')
          (hgo₂.mono (fun _ _ _ => .inl) (List.Subset.refl _))
            (hrec.goes.mono (fun _ _ _ => hmono) (List.Subset.refl _)))
      exact hgo.mono (fun _ _ _ => id) (by rw [List.flatMap_cons]; exact List.Subset.refl _)
    · rw [List.mem_cons, not_or] at hvp
      exact hrec.none v (hnone₂ v ((hother hvp.1).trans hv)) hvp.2
    · rcases List.mem_cons.mp hp with rfl | hp'
      · by_contra hne
        have hu := hg₁.regs.used_eq ((hother (Ne.symm hne)).trans hb) hbr
        rw [hg₁.regs.used_eq ha hpr] at hu
        exact hne (Option.some.inj (Option.some.inj hu))
      · by_cases hvp : v = phi
        · subst hvp
          have hs := hold b hb
          exact hrec.apart p hp' v a r (hstay ha (hmem hv).1) (hs.reg.trans hbr) (hmem hv).2 hpr
        · exact hrec.apart p hp' v b r (hstay ((hother hvp).trans hb) (hmem hv).1) hbr (hmem hv).2 hpr
    · by_cases hvp : v = phi
      · subst hvp
        refine ⟨a, List.mem_cons_self, hg₁.sane v a ha, hg₁.regs.fixed v a ha,
          fun b hb _ => (hold b hb).mono fun _ => List.mem_cons_self, hreg,
          fun hnf => ?_, hhome⟩
        obtain ⟨a', ha', hs⟩ := hrec.goes.keeps v a (hstay ha (hmem hnf).1) (hmem hnf).2
        exact ⟨a', ha', hmono hs⟩
      · obtain ⟨b, hb⟩ := hrec.record v ((List.mem_cons.mp hv).resolve_left hvp)
        refine ⟨b, List.mem_cons_of_mem _ hb.mem, hb.sane, hb.reg, fun b' hb' hfree => ?_, fun hn => ?_,
          fun hnf => ?_, hb.home⟩
        · have hsplit (l₁ l₂ : List Val) (hl : phis = l₁ ++ v :: l₂) (hv₁ : v ∉ l₁) :
            v ∉ F.moveFrees cur phi ∧ v ∉ l₁.flatMap (F.moveFrees cur) := by
            have := hfree (phi :: l₁) l₂ (by rw [hl, List.cons_append]) (by simp [hvp, hv₁])
            rwa [List.flatMap_cons, List.mem_append, not_or] at this
          obtain ⟨l₁, l₂, hl, hv₁⟩ := List.eq_append_cons_of_mem ((List.mem_cons.mp hv).resolve_left hvp)
          exact hmono (hb.old b' (hstay ((hother hvp).trans hb') (hsplit l₁ l₂ hl hv₁).1)
            fun l₁ l₂ hl hv₁ => (hsplit l₁ l₂ hl hv₁).2)
        · exact hb.new (hnone₂ v ((hother hvp).trans hn))
        · obtain ⟨a', ha', hs⟩ := hb.keeps (hmem hnf).2
          exact ⟨a', ha', hmono hs⟩
    · obtain ⟨b₂, hb₂, hbr₂, hf₂⟩ := hrec.used v b r hb hbr hf
      have hb₁ : s₁.val v = some b₂ := ((hg₁.frees_val hfrees v).resolve_left (by simp [hb₂])).symm.trans hb₂
      by_cases hvp : v = phi
      · subst hvp
        obtain rfl := Option.some.inj (ha.symm.trans hb₁)
        cases hs : s.val v with
        | none => simp [hreg hs hf₂] at hbr₂
        | some b' => exact ⟨b', rfl, (hold b' hs).reg ▸ hbr₂, (hold b' hs).grows.fixed ▸ hf₂⟩
      · exact ⟨b₂, (hother hvp).symm.trans hb₁, hbr₂, hf₂⟩

end

/-! ### The block -/

/-- What the end of a block leaves of an assignment: it is in no other register, and its slot
is valid if it was, or for the phis that are moved to. -/
structure Ends (P : Val → Prop) (v : Val) (a a' : Assignment) : Prop where
  grows : Grows a a'
  reg : ∀ r, a'.reg = some r → a.reg = some r
  stackValid : a'.stackValid → a.stackValid ∨ P v

theorem Ends.trans {P : Val → Prop} {v : Val} {a a' a'' : Assignment} (h : Ends P v a a')
    (h' : Ends P v a' a'') : Ends P v a a'' where
  grows := h.grows.trans h'.grows
  reg r hr := h.reg r (h'.reg r hr)
  stackValid hs := (h'.stackValid hs).elim h.stackValid .inr

theorem Stays.ends {P : Val → Prop} {v : Val} {a a' : Assignment} (h : Stays P v a a') : Ends P v a a' :=
  ⟨h.grows, fun _ hr => h.reg ▸ hr, h.stackValid⟩

theorem Drops.ends {P : Val → Prop} {v : Val} {a a' : Assignment} (h : Drops v a a') : Ends P v a a' where
  grows := h.grows
  reg r hr := h.reg hr ▸ hr
  stackValid hs := by
    rcases h with rfl | ⟨-, -, rfl⟩ <;> exact .inl hs

section
variable {F : Flow} {c : Config} {s s' : St} {cur : ℕ}

/-- The states at the end of a block with successors: behind the instructions, behind the
moves, and behind the block. -/
structure Flow.Ending (F : Flow) (c : Config) (cur : ℕ) (s s₁ : St) (homes : List (Val × Assignment))
    (s₂ s' : St) : Prop where
  events : (F.events cur).foldlM (F.event c) s = .ok s₁
  moves : F.moveToPhis cur (F.spillBeforeBranch c s₁ cur).2 (F.targets cur) = .ok (homes, s₂)
  release : ∃ s₃, s₂.freeRegs (F.spillBeforeBranch c s₁ cur).1 = .ok s₃ ∧
    (F.delayedFrees cur).foldlM St.free s₃ = .ok s'

theorem Flow.ending (hsucc : F.succs cur ≠ []) (hok : F.compileBlock c s cur = .ok s') :
    ∃ s₁ homes s₂, F.Ending c cur s s₁ homes s₂ s' := by
  rw [Flow.compileBlock, bind_eq_ok] at hok
  obtain ⟨s₁, hbody, hok⟩ := hok
  rw [bind_eq_ok] at hok
  obtain ⟨s₃, hend, hfrees⟩ := hok
  rw [Flow.terminator, if_neg hsucc] at hend
  dsimp only at hend
  rw [bind_eq_ok] at hend
  obtain ⟨⟨homes, s₂⟩, hmoves, hregs⟩ := hend
  exact ⟨s₁, homes, s₂, hbody, hmoves, s₃, hregs, hfrees⟩

/-- Behind the moves of a block. -/
theorem Flow.Ending.behind {s₁ s₂ : St} {homes : List (Val × Assignment)}
    (he : F.Ending c cur s s₁ homes s₂ s') (h : Good c.arch s₂) :
    Goes c.arch (Ends (· ∈ F.targets cur)) (F.delayedFrees cur) s₂ s' ∧
      (∀ v a, s'.val v = some a → ∃ b, s₂.val v = some b ∧ Ends (· ∈ F.targets cur) v b a) ∧
      ∀ v a r, s'.val v = some a → a.reg = some r → r ∈ (F.spillBeforeBranch c s₁ cur).1 → a.fixed := by
  obtain ⟨s₃, hregs, hfrees⟩ := he.release
  obtain ⟨hgo₃, -, hnone₃, hfix⟩ := h.freeRegs hregs
  obtain ⟨hgo, -, -⟩ := hgo₃.good.frees hfrees
  have hback {v : Val} {a : Assignment} (ha : s'.val v = some a) : s₃.val v = some a :=
    ((hgo₃.good.frees_val hfrees v).resolve_left (by simp [ha])).symm.trans ha
  refine ⟨(Goes.trans (R := Ends (· ∈ F.targets cur)) (fun _ _ _ _ hs hs' => hs.trans hs')
    (hgo₃.mono (fun _ _ _ => Drops.ends) (List.Subset.refl _))
    (hgo.mono (fun v a a' heq => heq ▸ Stays.ends (.inl rfl)) (List.Subset.refl _))), fun v a ha => ?_,
    fun v a r ha hr hmem => hfix v a r hmem (hback ha) hr⟩
  obtain ⟨b, hb, hd⟩ := hgo₃.back hnone₃ (hback ha)
  exact ⟨b, hb, hd.ends⟩

/-- What is freed in a block. -/
def Flow.Frees (F : Flow) (cur : ℕ) (v : Val) : Prop :=
  v ∈ freed (F.events cur) ∨ v ∈ (F.targets cur).flatMap (F.moveFrees cur) ∨ v ∈ F.delayedFrees cur

/-- What a block keeps: values that it does not free, and after spills no registers but fixed
ones. -/
structure Flow.Kept (F : Flow) (arch : Arch) (cur : ℕ) (s s' : St) : Prop where
  good : Good arch s'
  keeps : ∀ v a, s.val v = some a → ¬ F.Frees cur v → ∃ a', s'.val v = some a' ∧ Grows a a'
  new : ∀ v, s.val v = none → s'.val v ≠ none → (∃ op, .define v op ∈ F.events cur) ∨ v ∈ F.targets cur
  fixed : F.mustSpill cur → ∀ v a r, s'.val v = some a → a.reg = some r → a.fixed

/-- `compile_block`. -/
theorem Good.compileBlock (hF : F.Fits c.arch) (h : Good c.arch s)
    (hok : F.compileBlock c s cur = .ok s') : F.Kept c.arch cur s s' := by
  by_cases hsucc : F.succs cur = []
  · rw [Flow.compileBlock, bind_eq_ok] at hok
    obtain ⟨s₁, hbody, hok⟩ := hok
    rw [bind_eq_ok] at hok
    obtain ⟨s₃, hend, hfrees⟩ := hok
    rw [Flow.terminator, if_pos hsucc] at hend
    obtain ⟨hgo₁, hnew, -⟩ := h.events hF hbody
    obtain ⟨hgo₃, -, hnone₃, hfix⟩ := hgo₁.good.freeRegs hend
    obtain ⟨hgo, -, hnone⟩ := hgo₃.good.frees hfrees
    refine ⟨hgo.good, fun v a ha hv => ?_, fun v hv hs' => ?_, fun _ v a r ha hr => ?_⟩
    · rw [Flow.Frees, not_or, not_or] at hv
      obtain ⟨a₁, ha₁, hr₁⟩ := hgo₁.keeps v a ha hv.1
      obtain ⟨a₃, ha₃, hr₃⟩ := hgo₃.keeps v a₁ ha₁ (by simp)
      obtain ⟨a', ha', rfl⟩ := hgo.keeps v a₃ ha₃ hv.2.2
      exact ⟨a', ha', hr₁.trans hr₃.grows⟩
    · exact .inl ((hnew v hv).resolve_left fun hn => hs' (hnone v (hnone₃ v hn)))
    · have hb : s₃.val v = some a :=
        ((hgo₃.good.frees_val hfrees v).resolve_left (by simp [ha])).symm.trans ha
      exact hfix v a r (hgo₃.good.regs.usable r (by simp [hgo₃.good.regs.used_eq hb hr])) hb hr
  · obtain ⟨s₁, homes, s₂, he⟩ := Flow.ending hsucc hok
    obtain ⟨hgo₁, hnew, -⟩ := h.events hF he.events
    have hbr : Branched F c.arch cur s₁ (F.spillBeforeBranch c s₁ cur) := hgo₁.good.spillBeforeBranch cur
    have hmoved := hbr.goes.good.moveToPhis hF he.moves
    obtain ⟨hgo, hback, hfix⟩ := he.behind hmoved.goes.good
    refine ⟨hgo.good, fun v a ha hv => ?_, fun v hv hs' => ?_, fun hm v a r ha hr => ?_⟩
    · rw [Flow.Frees, not_or, not_or] at hv
      obtain ⟨a₁, ha₁, hr₁⟩ := hgo₁.keeps v a ha hv.1
      obtain ⟨b, hb, hrb⟩ := hbr.goes.keeps v a₁ ha₁ (by simp)
      obtain ⟨a₂, ha₂, hr₂⟩ := hmoved.goes.keeps v b hb hv.2.1
      obtain ⟨a', ha', hr'⟩ := hgo.keeps v a₂ ha₂ hv.2.2
      exact ⟨a', ha', ((hr₁.trans hrb.grows).trans hr₂.grows).trans hr'.grows⟩
    · rcases hnew v hv with hn | hdef
      · by_cases htarget : v ∈ F.targets cur
        · exact .inr htarget
        · obtain ⟨a, ha⟩ := Option.ne_none_iff_exists'.mp hs'
          obtain ⟨b, hb, -⟩ := hback v a ha
          simp [hmoved.none v (hbr.none v hn) htarget] at hb
      · exact .inl hdef
    · by_contra hf
      obtain ⟨a₂, ha₂, hends⟩ := hback v a ha
      obtain ⟨b, hb, hbr', hbf⟩ :=
        hmoved.used v a₂ r ha₂ (hends.reg r hr) (by rw [← hends.grows.fixed]; simpa using hf)
      exact hf (hfix v a r ha hr (hbr.released hm v b r hb hbr' hbf))

end

end Tpde.Values
