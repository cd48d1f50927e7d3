import Tpde.Compiler.Blocks

/-!
# What the code of a block keeps

The events of a block, one lemma for each: values stay where they are known to be, or move
to another home, and the code that is emitted keeps what they are.
-/

namespace Tpde.Values

open RegMachine

/-! ### What is kept -/

/-- A part with a place where its value is. -/
def Assignment.HasHome (a : Assignment) : Prop := a.reg.isSome ∨ a.stackValid ∨ a.variableRef

/-- What stays of an assignment: its kind, a fixed register, and a valid slot. -/
structure Grows (a a' : Assignment) : Prop where
  bits : a'.bits = a.bits
  variableRef : a'.variableRef = a.variableRef
  stackVariable : a'.stackVariable = a.stackVariable
  frameOff : a'.frameOff = a.frameOff
  fixed : a'.fixed = a.fixed
  reg : a.fixed → a'.reg = a.reg
  stackValid : a.stackValid → a'.stackValid
  home : a.HasHome → a'.HasHome

theorem Grows.refl (a : Assignment) : Grows a a := ⟨rfl, rfl, rfl, rfl, rfl, fun _ => rfl, id, id⟩

theorem Grows.trans {a a' a'' : Assignment} (h : Grows a a') (h' : Grows a' a'') : Grows a a'' where
  bits := h'.bits.trans h.bits
  variableRef := h'.variableRef.trans h.variableRef
  stackVariable := h'.stackVariable.trans h.stackVariable
  frameOff := h'.frameOff.trans h.frameOff
  fixed := h'.fixed.trans h.fixed
  reg hf := (h'.reg (h.fixed ▸ hf)).trans (h.reg hf)
  stackValid hs := h'.stackValid (h.stackValid hs)
  home hh := h'.home (h.home hh)

/-- Fixed parts and addresses of variables have no slot. -/
structure Sane (a : Assignment) : Prop where
  bits : a.bits ≤ 64
  fixed : a.fixed → a.stackValid = false ∧ a.variableRef = false
  varRef : a.variableRef → a.stackValid = false
  stackVariable : a.stackVariable → a.variableRef

/-- A state between two instructions. -/
structure Good (arch : Arch) (s : St) : Prop where
  regs : Regs arch s 0
  sane : ∀ v a, s.val v = some a → Sane a

/-- From `s` to `s'` code is appended, and values are kept but for those that are freed. -/
structure Goes (arch : Arch) (R : Val → Assignment → Assignment → Prop) (freed : List Val) (s s' : St) :
    Prop where
  good : Good arch s'
  keeps : ∀ v a, s.val v = some a → v ∉ freed → ∃ a', s'.val v = some a' ∧ R v a a'
  code : s.code <+: s'.code

section
variable {arch : Arch} {R : Val → Assignment → Assignment → Prop} {freed freed' : List Val} {s s' s'' : St}

theorem Goes.refl (h : Good arch s) (hR : ∀ v a, R v a a) : Goes arch R freed s s :=
  ⟨h, fun v a ha _ => ⟨a, ha, hR v a⟩, List.prefix_refl _⟩

theorem Goes.trans (hR : ∀ v a a' a'', R v a a' → R v a' a'' → R v a a'') (h : Goes arch R freed s s')
    (h' : Goes arch R freed' s' s'') :
    Goes arch R (freed ++ freed') s s'' where
  good := h'.good
  keeps v a ha hv := by
    rw [List.mem_append, not_or] at hv
    obtain ⟨a', ha', hr⟩ := h.keeps v a ha hv.1
    obtain ⟨a'', ha'', hr'⟩ := h'.keeps v a' ha' hv.2
    exact ⟨a'', ha'', hR v a a' a'' hr hr'⟩
  code := h.code.trans h'.code

theorem Goes.mono {R' : Val → Assignment → Assignment → Prop} (h : Goes arch R freed s s')
    (hR : ∀ v a a', R v a a' → R' v a a')
    (hf : freed ⊆ freed') : Goes arch R' freed' s s' where
  good := h.good
  keeps v a ha hv := by
    obtain ⟨a', ha', hr⟩ := h.keeps v a ha fun hmem => hv (hf hmem)
    exact ⟨a', ha', hR v a a' hr⟩
  code := h.code

/-- One assignment changes. -/
theorem Good.update {v : Val} {x : Option Assignment} (h : Good arch s) (hregs : Regs arch s' 0)
    (hval : s'.val = Function.update s.val v x)
    (hx : ∀ a, x = some a → Sane a) : Good arch s' := by
  refine ⟨hregs, fun w b hb => ?_⟩
  rw [hval, Function.update_apply] at hb
  split at hb
  · exact hx b hb
  · exact h.sane w b hb

theorem Goes.update {v : Val} {a b : Assignment} (h : Good arch s) (hregs : Regs arch s' 0)
    (ha : s.val v = some a)
    (hval : s'.val = Function.update s.val v (some b)) (hb : Sane a → Sane b) (hab : R v a b)
    (hR : ∀ w x, R w x x)
    (hcode : s.code <+: s'.code) : Goes arch R freed s s' where
  good := h.update hregs hval fun b' hb' => Option.some.inj hb' ▸ hb (h.sane v a ha)
  keeps w x hx _ := by
    rw [hval, Function.update_apply]
    split
    · rename_i hw
      subst hw
      obtain rfl := Option.some.inj (ha.symm.trans hx)
      exact ⟨b, rfl, hab⟩
    · exact ⟨x, hx, hR w x⟩
  code := hcode

end

/-- A value without an assignment is none of those that have one. -/
theorem ne_of_val {s : St} {v w : Val} {a : Assignment} (ha : s.val v = some a) (hw : s.val w = none) :
    w ≠ v := by
  rintro rfl
  rw [ha] at hw
  cases hw

/-- What is only known to grow. -/
abbrev Goes.Grown (arch : Arch) (freed : List Val) (s s' : St) : Prop := Goes arch (fun _ => Grows) freed s s'

theorem Goes.grown_trans {arch : Arch} {freed freed' : List Val} {s s' s'' : St}
    (h : Goes.Grown arch freed s s')
    (h' : Goes.Grown arch freed' s' s'') : Goes.Grown arch (freed ++ freed') s s'' :=
  Goes.trans (fun _ _ _ _ => Grows.trans) h h'

/-! ### The homes of some values -/

/-- The values of `L` that have an assignment have their homes. -/
def HomesOn (arch : Arch) (L : Val → Prop) (s : St) (m : Machine Val) (σ : Val → Word) : Prop :=
  ∀ v a, L v → s.val v = some a → Home arch m σ v False a

/-- The code from `s` to `s'` keeps the homes of any values. -/
def Carries (arch : Arch) (s s' : St) : Prop :=
  ∀ L m σ, HomesOn arch L s m σ → HomesOn arch L s' (s.after s' m) σ

section
variable {arch : Arch} {s s' s'' : St} {L : Val → Prop} {m : Machine Val} {σ : Val → Word}

theorem Carries.refl (arch : Arch) (s : St) : Carries arch s s := fun L m σ h => by rwa [St.after_self rfl]

theorem Carries.trans (hc : s.code <+: s'.code) (hc' : s'.code <+: s''.code) (h : Carries arch s s')
    (h' : Carries arch s' s'') :
    Carries arch s s'' := fun L m σ hs => by
  rw [← St.after_after hc hc']
  exact h' L _ σ (h L m σ hs)

theorem Home.congr {v : Val} {a : Assignment} {gone : Prop} {σ' : Val → Word}
    (h : Home arch m σ v gone a) (hσ : σ' v = σ v) :
    Home arch m σ' v gone a :=
  ⟨h.bits, by simpa only [hσ] using h.reg, by simpa only [hσ] using h.slot, by simpa only [hσ] using h.var,
    by simpa only [hσ] using h.stackVar, h.home⟩

/-- A value is stored to its slot, or is there already, and may lose its register. -/
theorem HomesOn.store {v : Val} {r : Reg} {a b : Assignment} (h : HomesOn arch L s m σ)
    (ha : s.val v = some a) (hr : a.reg = some r)
    (hval : s'.val = Function.update s.val v (some { a with
      stackValid := a.stackValid || !a.variableRef, reg := b.reg }))
    (hb : b.reg = a.reg ∨ b.reg = none) :
    HomesOn arch L s' (run Op.eval m (if !a.stackValid && !a.variableRef then [.spill v r a.bits]
      else [])) σ := by
  intro w b' hL hb'
  rw [hval, Function.update_apply] at hb'
  rw [run_spill]
  split at hb'
  · rename_i heq
    subst heq
    obtain rfl := Option.some.inj hb'
    have hv := h _ _ hL ha
    refine ⟨hv.bits, fun r' hr' => ?_, fun hs => ?_, hv.var, hv.stackVar, fun _ => ?_⟩
    · rcases hb with hb | hb
      · exact hv.reg r' (hb ▸ hr')
      · simp [hb] at hr'
    · have hspill := (agree_low hv.bits (m.reg r)).trans (hv.reg r hr)
      have hslot := hv.slot
      dsimp only
      rw [Function.update_self]
      grind
    · cases a.stackValid <;> cases a.variableRef <;> simp
  · rename_i hne
    have hw := h w b' hL hb'
    refine ⟨hw.bits, hw.reg, fun hs => ?_, hw.var, hw.stackVar, hw.home⟩
    simpa only [Function.update_of_ne hne] using hw.slot hs

/-- A register that none of the values is in is written. -/
theorem HomesOn.write {d : Reg} {x : Word} (h : HomesOn arch L s m σ)
    (hd : ∀ v a, L v → s.val v = some a → a.reg ≠ some d)
    (hfp : d ≠ arch.framePtr) : HomesOn arch L s { m with reg := Function.update m.reg d x } σ := by
  intro v a hL ha
  have hv := h v a hL ha
  refine ⟨hv.bits, fun r hr => ?_, hv.slot, hv.var, fun hs => ?_, hv.home⟩
  · have hne : r ≠ d := fun heq => hd v a hL ha (heq ▸ hr)
    simpa only [Function.update_of_ne hne] using hv.reg r hr
  · simpa only [Function.update_of_ne hfp.symm] using hv.stackVar hs

end

/-! ### Evictions -/

section
variable {arch : Arch} {s s' : St}

theorem evictReg_ok {r : Reg} (h : s.evictReg r = .ok s') :
    ∃ v a, s.used r = some (some v) ∧ s.val v = some a ∧ s.locks r = 0 ∧ a.reg = some r ∧
      s' = s.evicted r v a := by
  cases hu : s.used r with
  | none => simp [St.evictReg, hu] at h
  | some o =>
    cases o with
    | none => simp [St.evictReg, hu] at h
    | some v =>
      cases ha : s.val v with
      | none => simp [St.evictReg, hu, ha] at h
      | some a =>
        by_cases hc : s.locks r = 0 ∧ a.reg = some r
        · rw [evictReg_eq hu hc.1 ha hc.2] at h
          exact ⟨v, a, rfl, ha, hc.1, hc.2, (Except.ok.inj h).symm⟩
        · simp [St.evictReg, hu, ha, hc] at h

/-- A register without a lock has no fixed part. -/
theorem Good.not_fixed (h : Good arch s) {v : Val} {a : Assignment} {r : Reg} (ha : s.val v = some a)
    (hr : a.reg = some r)
    (hlock : s.locks r = 0) : a.fixed = false := by
  have hl := h.regs.locks r
  rw [h.regs.fixedLock_eq ha hr, hlock] at hl
  by_contra hf
  simp [hf] at hl

/-- A fixed part has its register locked, and another part has not. -/
theorem Good.locks_eq (h : Good arch s) {v : Val} {a : Assignment} {r : Reg} (ha : s.val v = some a)
    (hr : a.reg = some r) :
    s.locks r = if a.fixed then 1 else 0 := by
  rw [h.regs.locks, h.regs.fixedLock_eq ha hr]
  simp

theorem Good.evicted (h : Good arch s) {v : Val} {a : Assignment} {r : Reg} (hlock : s.locks r = 0)
    (ha : s.val v = some a)
    (hr : a.reg = some r) : Goes.Grown arch [] s (s.evicted r v a) := by
  have hf := h.not_fixed ha hr hlock
  refine .update h (h.regs.evicted hlock ha hr) ha rfl
    (fun hs => ⟨hs.bits, by simp [hf], fun hv => ?_, hs.stackVariable⟩)
    ⟨rfl, rfl, rfl, rfl, rfl, by simp [hf], by simp +contextual, fun _ => ?_⟩ (fun _ => .refl)
      (List.prefix_append ..)
  · dsimp only at hv
    simp [hv, hs.varRef hv]
  · cases a.variableRef <;> simp [Assignment.HasHome]

theorem carries_evicted {v : Val} {a : Assignment} {r : Reg} (ha : s.val v = some a) (hr : a.reg = some r) :
    Carries arch s (s.evicted r v a) := fun L m σ h => by
  have hcode : (s.evicted r v a).code = s.code ++ if !a.stackValid && !a.variableRef then
    [.spill v r a.bits] else [] := rfl
  rw [St.after_of_append hcode]
  exact h.store (b := { a with reg := none }) ha hr rfl (.inr rfl)

/-- `select_reg` where it succeeds. -/
theorem Good.selectReg {c : Config} (h : Good c.arch s) {r : Reg} (hok : c.selectReg s = .ok (r, s')) :
    Goes.Grown c.arch [] s s' ∧ Carries c.arch s s' ∧ s'.used r = none ∧ r ∈ c.arch.allocatable ∧
      ∀ v, s.regOf v = none → s'.val v = s.val v := by
  rw [Config.selectReg] at hok
  cases hfind : c.arch.allocatable.find? fun r => s.used r == none with
  | some r' =>
    rw [hfind] at hok
    obtain ⟨rfl, rfl⟩ := Prod.mk.inj (Except.ok.inj hok)
    exact ⟨.refl h fun _ => .refl, Carries.refl _ s, by simpa using List.find?_some hfind,
      List.mem_of_find?_eq_some hfind, fun _ _ => rfl⟩
  | none =>
    rw [hfind] at hok
    cases ho : c.candidate s c.arch.allocatable none 0 with
    | error e => simp [ho, bind, Except.bind] at hok
    | ok o =>
      cases o with
      | none => simp [ho, bind, Except.bind] at hok
      | some r' =>
        cases hev : s.evictReg r' with
        | error e => simp [ho, hev, bind, Except.bind] at hok
        | ok s₁ =>
          simp only [ho, hev, ok_bind] at hok
          obtain ⟨rfl, rfl⟩ := Prod.mk.inj (Except.ok.inj hok)
          obtain ⟨v, a, hu, ha, hlock, hr, rfl⟩ := evictReg_ok hev
          refine ⟨h.evicted hlock ha hr, carries_evicted ha hr, Function.update_self ..,
            h.regs.usable _ (by simp [hu]), ?_⟩
          intro w hw
          refine Function.update_of_ne ?_ ..
          rintro rfl
          rw [St.regOf_eq ha, hr] at hw
          cases hw

/-! ### Places for values -/

/-- A value without a register gets an assignment, or loses it. -/
theorem Regs.assign {arch : Arch} {s s' : St} {held : Multiset Reg} {v : Val} {x : Option Assignment}
    (h : Regs arch s held)
    (hreg : s.regOf v = none) (hx : ∀ b, x = some b → b.reg = none ∧ b.fixed = false)
    (hused : s'.used = s.used)
    (hlocks : s'.locks = s.locks) (hval : s'.val = Function.update s.val v x)
    (hcount : s'.fixedCount = s.fixedCount) :
    Regs arch s' held := by
  have hval : ∀ y, s'.val y = if y = v then x else s.val y := fun y => by rw [hval, Function.update_apply]
  have hregs : ∀ y, s'.regOf y = s.regOf y := by
    intro y
    rw [St.regOf, hval]
    split
    · rename_i heq
      rw [heq, hreg]
      cases x with
      | none => rfl
      | some b => exact (hx b rfl).1
    · rfl
  have hlockEq : ∀ r, s'.fixedLock r = s.fixedLock r := by
    intro r
    simp only [St.fixedLock, hused, hval]
    have := h.owner r v
    grind
  refine ⟨?_, ?_, ?_, ?_, ?_, ?_, ?_, ?_⟩
  · simpa only [hregs, hused] using h.owner
  · simpa only [hused] using h.usable
  · simpa only [hlockEq, hlocks] using h.locks
  · simpa only [hused] using h.temp
  · simpa only [hused] using h.used
  · intro w b' hb'
    have := h.fixed w b'
    grind
  · simpa only [hlockEq, hcount] using h.fixedCount
  · simpa only [hcount] using h.fixedMost

/-- A value without an assignment gets a free register for as long as it is needed. -/
theorem Regs.assignFixed {arch : Arch} {s s' : St} {held : Multiset Reg} {v : Val} {r : Reg}
    {b : Assignment} (h : Regs arch s held)
    (hr : r ∈ arch.allocatable) (hu : s.used r = none) (hreg : s.regOf v = none) (hmost : s.fixedCount < 5)
    (hb : b.reg = some r ∧ b.fixed = true) (hused : s'.used = Function.update s.used r (some (some v)))
    (hlocks : s'.locks = Function.update s.locks r 1)
    (hval : s'.val = Function.update s.val v (some b)) (hcount : s'.fixedCount = s.fixedCount + 1) :
      Regs arch s' held := by
  have hused : ∀ x, s'.used x = if x = r then some (some v) else s.used x :=
    fun x => by rw [hused, Function.update_apply]
  have hlocks : ∀ x, s'.locks x = if x = r then 1 else s.locks x :=
    fun x => by rw [hlocks, Function.update_apply]
  have hval : ∀ x, s'.val x = if x = v then some b else s.val x :=
    fun x => by rw [hval, Function.update_apply]
  have hregs : ∀ x, s'.regOf x = if x = v then some r else s.regOf x := by
    intro x
    rw [St.regOf, hval]
    split
    · exact hb.1
    · rfl
  have hlockEq : ∀ r', s'.fixedLock r' = if r' = r then 1 else s.fixedLock r' := by
    intro r'
    simp only [St.fixedLock, hused, hval]
    have := h.owner r' v
    grind
  have hheld : held.count r = 0 := Multiset.count_eq_zero_of_notMem (h.not_mem hu)
  constructor
  · intro r' w
    have hw := h.owner r' w
    rw [hused, hregs]
    have := h.owner r w
    grind
  · intro r' hr'
    have := h.usable r'
    grind
  · intro r'
    rw [hlockEq, hlocks]
    have := h.locks r'
    grind
  · intro r' hr'
    have := h.temp r'
    grind
  · intro r' hmem
    have := h.used r' hmem
    rw [hused]
    grind
  · intro w b' hb'
    have := h.fixed w b'
    grind
  · rw [hcount]
    have hsub : (arch.allocatable.filter fun r' => s'.fixedLock r' ≠ 0) ⊆
        r :: arch.allocatable.filter fun r' => s.fixedLock r' ≠ 0 := by
      intro r' hr'
      rw [List.mem_filter, hlockEq] at hr'
      by_cases heq : r' = r
      · exact heq ▸ List.mem_cons_self
      · rw [if_neg heq] at hr'
        exact List.mem_cons_of_mem _ (List.mem_filter.mpr hr')
    have hle := (((nodup_allocatable arch).filter _).subperm hsub).length_le
    rw [List.length_cons] at hle
    exact hle.trans (Nat.add_le_add_right h.fixedCount 1)
  · omega

end

/-! ### The events -/

section
variable {F : Flow} {c : Config} {s s' : St} {v : Val}

/-- What the target and the adaptor promise of new values. -/
structure Flow.Fits (F : Flow) (arch : Arch) : Prop where
  bits : ∀ v, F.bits v ≤ 64
  fixedReg : ∀ v s r, F.fixedReg v s = some r → r ∈ arch.allocatable

/-- A new assignment. -/
structure Fresh (a : Assignment) : Prop where
  stackValid : a.stackValid = false
  variableRef : a.variableRef = false
  stackVariable : a.stackVariable = false
  reg : a.fixed = a.reg.isSome

theorem regOf_of_none (h : s.val v = none) : s.regOf v = none := by simp [St.regOf, h]

/-- `init_assignment` where it succeeds. -/
theorem Good.initAssignment (hF : F.Fits c.arch) (h : Good c.arch s) (hok : F.initAssignment s v = .ok s') :
    Good c.arch s' ∧ s.val v = none ∧ s'.code = s.code ∧ ∃ a,
      s'.val = Function.update s.val v (some a) ∧ Sane a ∧ Fresh a := by
  rw [Flow.initAssignment] at hok
  by_cases hv : s.val v = none
  swap
  · simp [hv] at hok
  rw [if_neg (by simpa using hv)] at hok
  have plain {s' : St} {a : Assignment} (hs' : s' = s.setVal v a) (ha : Fresh a) (hf : a.fixed = false)
    (hb : a.bits ≤ 64) :
      Good c.arch s' ∧ s.val v = none ∧ s'.code = s.code ∧ ∃ a,
        s'.val = Function.update s.val v (some a) ∧ Sane a ∧ Fresh a := by
    have hsane : Sane a := ⟨hb, by simp [hf], fun _ => ha.stackValid, by simp [ha.stackVariable]⟩
    have hreg : a.reg = none := by simpa [hf] using ha.reg
    subst hs'
    have hregs : Regs c.arch (s.setVal v a) 0 :=
      h.regs.assign (regOf_of_none hv) (fun b hb => Option.some.inj hb ▸ ⟨hreg, hf⟩) rfl rfl rfl rfl
    exact ⟨h.update hregs rfl fun b hb => Option.some.inj hb ▸ hsane, hv, rfl, a, rfl, hsane, ha⟩
  cases hfix : F.fixedReg v s with
  | none =>
    simp only [hfix] at hok
    exact plain (Except.ok.inj hok).symm ⟨rfl, rfl, rfl, rfl⟩ rfl (hF.bits v)
  | some r =>
    simp only [hfix] at hok
    split at hok
    case isFalse => exact plain (Except.ok.inj hok).symm ⟨rfl, rfl, rfl, rfl⟩ rfl (hF.bits v)
    case isTrue hc =>
      have hlock := h.regs.locks_free hc.2
      simp only [St.markUsed, hc.2, hlock, and_self, if_true, ok_bind, St.incLockCount,
        Function.update_self, ne_eq, reduceCtorEq,
        not_false_eq_true, Nat.zero_add] at hok
      obtain rfl := Except.ok.inj hok
      have hsane : Sane
          { bits := F.bits v, reg := some r, stackValid := false, fixed := true, variableRef := false
            stackVariable := false, frameOff := 0, delayFree := F.lastFull v, pendingFree := false
            refs := F.refCount v } :=
        ⟨hF.bits v, by simp, by simp, by simp⟩
      exact ⟨h.update (h.regs.assignFixed (hF.fixedReg v s r hfix) hc.2 (regOf_of_none hv) hc.1 ⟨rfl,
        rfl⟩ rfl rfl rfl rfl) rfl
        fun b hb => Option.some.inj hb ▸ hsane, hv, rfl, _, rfl, hsane, ⟨rfl, rfl, rfl, rfl⟩⟩

/-- `free_assignment` where it succeeds. -/
theorem Good.free {arch : Arch} (h : Good arch s) (hok : s.free v = .ok s') :
    Goes arch (fun _ a a' => a' = a) [v] s s' ∧ s'.val = Function.update s.val v none ∧ s'.code = s.code := by
  rw [St.free] at hok
  cases ha : s.val v with
  | none => simp [ha] at hok
  | some a =>
    simp only [ha, St.freeAssignment] at hok
    have finish (hregs : Regs arch s' 0) (hval : s'.val = Function.update s.val v none)
      (hcode : s'.code = s.code) :
        Goes arch (fun _ a a' => a' = a) [v] s s' ∧ s'.val = Function.update s.val v none ∧
          s'.code = s.code := by
      refine ⟨⟨h.update hregs hval (by simp), fun w b hb hw => ⟨b, ?_, rfl⟩,
        hcode ▸ List.prefix_refl _⟩, hval, hcode⟩
      rw [hval, Function.update_of_ne (by simpa using hw), hb]
    cases hr : a.reg with
    | none =>
      simp only [hr, ok_bind, pure, Except.pure] at hok
      obtain rfl := Except.ok.inj hok
      exact finish (h.regs.assign ((St.regOf_eq ha).trans hr) (by simp) rfl rfl rfl rfl) rfl rfl
    | some r =>
      have hu := h.regs.used_eq ha hr
      have hlock := h.locks_eq ha hr
      simp only [hr] at hok
      by_cases hf : a.fixed
      · rw [if_pos hf] at hlock
        simp only [hf, if_true, St.decLockCountMustZero, St.unmarkUsed, hu, hlock, ne_eq, reduceCtorEq,
          not_false_eq_true, and_self,
          ok_bind, Function.update_self, pure, Except.pure] at hok
        obtain rfl := Except.ok.inj hok
        exact finish (h.regs.vacate ha hr (by simp) (.inl ⟨rfl, rfl, rfl⟩) (by simp) rfl
          rfl (by simp [hf]) (Nat.sub_le ..)) rfl rfl
      · rw [if_neg hf] at hlock
        simp only [hf, Bool.false_eq_true, if_false, St.unmarkUsed, hu, hlock, ne_eq, reduceCtorEq,
          not_false_eq_true, and_self,
          if_true, ok_bind, pure, Except.pure] at hok
        obtain rfl := Except.ok.inj hok
        refine finish
          (h.regs.vacate ha hr (by simp) (.inl ⟨rfl, ?_, rfl⟩) (by simp) rfl rfl (by simp [hf]) le_rfl)
          rfl rfl
        rw [← hlock, Function.update_eq_self]

/-- Values that are freed have no home to keep. -/
theorem carries_free {arch : Arch} (hval : s'.val = Function.update s.val v none)
    (hcode : s'.code = s.code) : Carries arch s s' := by
  intro L m σ h w a hL ha
  rw [St.after_self hcode]
  rw [hval, Function.update_apply] at ha
  split at ha
  · cases ha
  · exact h w a hL ha

/-- A value without a register gets one, which code writes. -/
theorem Good.place {arch : Arch} (h : Good arch s) {a : Assignment} {r : Reg} {i : Instr Val Op}
    (hr : r ∈ arch.allocatable)
    (hu : s.used r = none) (ha : s.val v = some a) (hnone : a.reg = none)
    (hused : s'.used = Function.update s.used r (some (some v)))
    (hlocks : s'.locks = s.locks) (hval : s'.val = Function.update s.val v (some { a with reg := some r }))
    (hcount : s'.fixedCount = s.fixedCount) (hcode : s'.code = s.code ++ [i]) : Goes.Grown arch [] s s' :=
  .update h (h.regs.place hr hu ha hnone hused hlocks hval hcount) ha hval
    (fun hs => ⟨hs.bits, hs.fixed, hs.varRef, hs.stackVariable⟩)
    ⟨rfl, rfl, rfl, rfl, rfl, fun hf => absurd hnone (h.regs.fixed v a ha hf), id,
      fun _ => .inl rfl⟩ (fun _ => .refl)
    (hcode ▸ List.prefix_append ..)

/-- The value that gets the register is there if what is written is its value. -/
theorem HomesOn.place {arch : Arch} {L : Val → Prop} {m : Machine Val} {σ : Val → Word} {a : Assignment}
    {r : Reg} {x : Word}
    (hregs : Regs arch s 0) (h : HomesOn arch L s m σ) (hr : r ∈ arch.allocatable) (hu : s.used r = none)
    (hval : s'.val = Function.update s.val v (some { a with reg := some r }))
    (hv : L v → Home arch m σ v True a) (hx : L v → Agree a.bits x (σ v)) :
    HomesOn arch L s' { m with reg := Function.update m.reg r x } σ := by
  have hfp : r ≠ arch.framePtr := fun heq => framePtr_not_mem arch (heq ▸ hr)
  have hne : ∀ w b, s.val w = some b → b.reg ≠ some r := fun w b hb hbr => by
    have := hregs.used_eq hb hbr
    rw [hu] at this
    cases this
  have hw := h.write (x := x) (fun w b _ => hne w b) hfp
  intro w b hL hb
  rw [hval, Function.update_apply] at hb
  split at hb
  · rename_i heq
    subst heq
    obtain rfl := Option.some.inj hb
    have hv := hv hL
    refine ⟨hv.bits, fun r' hr' => ?_, hv.slot, hv.var, fun hs => ?_, fun _ => .inl rfl⟩
    · obtain rfl := Option.some.inj hr'
      simpa using hx hL
    · dsimp only
      rw [Function.update_of_ne hfp.symm]
      exact hv.stackVar hs
  · exact hw w b hL hb

/-- A lock that is taken and given back. -/
theorem lock_unlock {s₁ : St} {r : Reg} (hinc : s.incLockCount r = .ok s₁)
    (hdec : s₁.decLockCount r = .ok s') : s' = s := by
  simp only [St.incLockCount] at hinc
  split at hinc
  · obtain rfl := Except.ok.inj hinc
    simp only [St.decLockCount] at hdec
    split at hdec
    · obtain rfl := Except.ok.inj hdec
      simp
    · cases hdec
  · cases hinc

/-- Loading a value. -/
theorem Good.load (h : Good c.arch s) (hok : F.event c s (.load v) = .ok s') :
    Goes.Grown c.arch [] s s' ∧ Carries c.arch s s' ∧ ∀ w, s.val w = none → s'.val w = none := by
  simp only [Flow.event, Config.loadToReg] at hok
  cases ha : s.val v with
  | none => simp [ha, bind, Except.bind] at hok
  | some a =>
    simp only [ha] at hok
    cases hr : a.reg with
    | some r =>
      simp only [hr] at hok
      cases hinc : s.incLockCount r with
      | error e => simp [hinc, bind, Except.bind] at hok
      | ok s₁ =>
        simp only [hinc, ok_bind, pure, Except.pure, St.resetPart, Bool.false_eq_true, if_false] at hok
        obtain rfl := lock_unlock hinc hok
        exact ⟨.refl h fun _ => .refl, Carries.refl _ s', fun _ => id⟩
    | none =>
      simp only [hr] at hok
      cases hsel : c.selectReg s with
      | error e => simp [hsel, bind, Except.bind] at hok
      | ok p =>
        obtain ⟨r, s₁⟩ := p
        obtain ⟨hg, hcar, hu, hmem, hkeep⟩ := h.selectReg hsel
        have ha₁ : s₁.val v = some a := (hkeep v ((St.regOf_eq ha).trans hr)).trans ha
        have hlock := hg.good.regs.locks_free hu
        simp only [hsel, ok_bind, St.markUsed, hu, hlock, and_self, if_true, St.setVal, St.incLockCount,
          Function.update_self, ne_eq,
          reduceCtorEq, not_false_eq_true, pure, Except.pure] at hok
        split at hok
        · cases hok
        · rename_i hstored
          simp only [ok_bind, St.resetPart, Bool.false_eq_true, if_false, St.decLockCount, St.emit,
            St.emits, Function.update_self, ne_eq,
            reduceCtorEq, not_false_eq_true, Nat.zero_add, Nat.lt_one_iff, and_self, if_true,
              Function.update_idem, Nat.sub_self] at hok
          have hs' := (Except.ok.inj hok).symm
          have hused : s'.used = Function.update s₁.used r (some (some v)) := by rw [hs']
          have hlocks : s'.locks = s₁.locks := by rw [hs', ← hlock, Function.update_eq_self]
          have hval : s'.val = Function.update s₁.val v (some { a with reg := some r }) := by rw [hs']
          have hcode :
            s'.code = s₁.code ++ [if a.variableRef then .address r v else .reload r v a.bits] := by rw [hs']
          have hplace := hg.good.place hmem hu ha₁ hr hused hlocks hval (by rw [hs']) hcode
          refine ⟨hg.grown_trans hplace, hcar.trans hg.code hplace.code fun L m σ hh => ?_, fun w hw => ?_⟩
          swap
          · rw [hval, Function.update_of_ne (ne_of_val ha hw), hkeep w (regOf_of_none hw), hw]
          rw [St.after_of_append hcode]
          have hhome (hL : L v) : Home c.arch m σ v True a := by
            have hv := hh v a hL ha₁
            exact ⟨hv.bits, hv.reg, hv.slot, hv.var, hv.stackVar, by simp⟩
          by_cases hvar : a.variableRef
          · simp only [hvar, if_true, run_cons, run_nil, exec]
            refine hh.place hg.good.regs hmem hu hval hhome fun hL => ?_
            rw [(hh v a hL ha₁).var hvar]
            exact rfl
          · simp only [hvar, Bool.false_eq_true, if_false, run_cons, run_nil, exec]
            refine hh.place hg.good.regs hmem hu hval hhome fun hL => ?_
            have hv := hh v a hL ha₁
            exact (agree_low hv.bits _).trans (hv.slot (by simpa [hvar] using hstored))

/-- A value that its instruction wrote to its register. -/
theorem HomesOn.defined {arch : Arch} {L : Val → Prop} {m : Machine Val} {σ : Val → Word}
    {b : Assignment} {r : Reg} (op : Op)
    (h : HomesOn arch (fun w => L w ∧ w ≠ v) s m σ) (hb : s.val v = some b) (hr : b.reg = some r)
    (hs : Sane b)
    (hslot : b.stackValid = false) (hvar : b.variableRef = false) (hstack : b.stackVariable = false) :
    HomesOn arch L s m (Event.ghost (.define v op) s m σ) := by
  have hghost : Event.ghost (.define v op) s m σ = Function.update σ v (m.reg r) := by
    simp [Event.ghost, St.regOf_eq hb, hr]
  rw [hghost]
  intro w b' hL hb'
  by_cases hw : w = v
  · subst hw
    obtain rfl := Option.some.inj (hb.symm.trans hb')
    refine ⟨hs.bits, fun r' hr' => ?_, by simp [hslot], by simp [hvar], by simp [hstack],
      fun _ => .inl (by simp [hr])⟩
    rw [Function.update_self, ← Option.some.inj (hr.symm.trans hr')]
    exact rfl
  · have hh := h w b' ⟨hL, hw⟩ hb'
    exact hh.congr (Function.update_of_ne hw ..)

/-- What an instruction that defines a value gives: the value is what it wrote. -/
theorem Good.define (hF : F.Fits c.arch) (h : Good c.arch s) {op : Op}
    (hok : F.event c s (.define v op) = .ok s') :
    Goes.Grown c.arch [] s s' ∧ s.val v = none ∧ (∃ a, s'.val v = some a ∧ a.HasHome) ∧
      (∀ w, w ≠ v → s.val w = none → s'.val w = none) ∧
      ∀ L m σ, HomesOn c.arch L s m σ →
        HomesOn c.arch L s' (s.after s' m) (Event.ghost (.define v op) s' (s.after s' m) σ) := by
  simp only [Flow.event] at hok
  cases hinit : F.initAssignment s v with
  | error e => simp [hinit, bind, Except.bind] at hok
  | ok s₁ =>
    obtain ⟨hg₁, hnone, hcode₁, a, hval₁, hsane, hfresh⟩ := h.initAssignment hF hinit
    have ha₁ : s₁.val v = some a := by rw [hval₁, Function.update_self]
    have hgo₁ : Goes.Grown c.arch [] s s₁ := by
      refine ⟨hg₁, fun w b hb _ => ⟨b, ?_, .refl b⟩, hcode₁ ▸ List.prefix_refl _⟩
      rw [hval₁, Function.update_of_ne (ne_of_val hb hnone).symm, hb]
    have hh₁ {L : Val → Prop} {m : Machine Val} {σ : Val → Word} (hh : HomesOn c.arch L s m σ) :
        HomesOn c.arch (fun w => L w ∧ w ≠ v) s₁ m σ := by
      intro w b hL hb
      rw [hval₁, Function.update_of_ne hL.2] at hb
      exact hh w b hL.1 hb
    simp only [hinit, ok_bind, ha₁] at hok
    cases hr : a.reg with
    | some r =>
      simp only [hr, pure, Except.pure] at hok
      obtain rfl := Except.ok.inj hok
      have hcode : (s₁.emit (.set r op)).code = s₁.code ++ [.set r op] := rfl
      have hu := hg₁.regs.used_eq ha₁ hr
      have hgo₂ : Goes.Grown c.arch [] s₁ (s₁.emit (.set r op)) :=
        ⟨⟨hg₁.regs.emits _, hg₁.sane⟩, fun w b hb _ => ⟨b, hb, .refl b⟩, List.prefix_append ..⟩
      refine ⟨hgo₁.grown_trans hgo₂, hnone, ⟨a, ha₁, .inl (by simp [hr])⟩,
        fun w hw hn => (congrFun hval₁ w).trans (by rw [Function.update_of_ne hw, hn]),
        fun L m σ hh => ?_⟩
      refine .defined op ?_ ha₁ hr hsane hfresh.stackValid hfresh.variableRef hfresh.stackVariable
      rw [St.after_of_append (hcode.trans (by rw [hcode₁]))]
      refine (hh₁ hh).write (fun w b hL hb hbr => hL.2 ?_) fun heq =>
        framePtr_not_mem c.arch (heq ▸ hg₁.regs.usable r (by simp [hu]))
      have := hg₁.regs.used_eq hb hbr
      rw [hu] at this
      exact (Option.some.inj (Option.some.inj this)).symm
    | none =>
      simp only [hr] at hok
      cases hsel : c.selectReg s₁ with
      | error e => simp [hsel, bind, Except.bind] at hok
      | ok p =>
        obtain ⟨r, s₂⟩ := p
        obtain ⟨hgo₂, hcar, hu, hmem, hkeep⟩ := hg₁.selectReg hsel
        have ha₂ : s₂.val v = some a := (hkeep v ((St.regOf_eq ha₁).trans hr)).trans ha₁
        have hlock := hgo₂.good.regs.locks_free hu
        simp only [hsel, ok_bind, St.markUsed, hu, hlock, and_self, if_true, pure, Except.pure] at hok
        have hs' := (Except.ok.inj hok).symm
        have hcode : s'.code = s₂.code ++ [.set r op] := by rw [hs']; rfl
        have hval : s'.val = Function.update s₂.val v (some { a with reg := some r }) := by rw [hs']; rfl
        have hplace :=
          hgo₂.good.place hmem hu ha₂ hr (by rw [hs']; rfl) (by rw [hs']; rfl) hval (by rw [hs']; rfl) hcode
        have ha' : s'.val v = some { a with reg := some r } := by rw [hval, Function.update_self]
        have hw₁ {w : Val} (hw : w ≠ v) (hn : s.val w = none) :
          s₁.val w = none := by rw [hval₁, Function.update_of_ne hw, hn]
        refine ⟨(hgo₁.grown_trans hgo₂).grown_trans hplace, hnone, ⟨_, ha', .inl rfl⟩,
          fun w hw hn => ?_, fun L m σ hh => ?_⟩
        · rw [hval, Function.update_of_ne hw, hkeep w (regOf_of_none (hw₁ hw hn)), hw₁ hw hn]
        refine .defined op ?_ ha' rfl ⟨hsane.bits, hsane.fixed, hsane.varRef, hsane.stackVariable⟩
          hfresh.stackValid hfresh.variableRef
          hfresh.stackVariable
        have hcar₂ := hcar _ _ _ (hh₁ hh)
        have hafter : s.after s' m = run Op.eval (s₁.after s₂ m) [.set r op] := by
          rw [← St.after_of_append hcode, ← St.after_self hcode₁ m,
            ← St.after_after hgo₁.code (hgo₂.code.trans hplace.code),
            ← St.after_after hgo₂.code hplace.code, St.after_self hcode₁ m, St.after_self hcode₁ m]
        rw [hafter]
        exact hcar₂.place hgo₂.good.regs hmem hu hval (fun hL => absurd rfl hL.2) fun hL => absurd rfl hL.2

/-- The values that events free. -/
def freed (evs : List Event) : List Val := evs.filterMap fun
  | .free v => some v
  | _ => none

/-- What an event keeps. -/
theorem Good.event (hF : F.Fits c.arch) (h : Good c.arch s) {ev : Event} (hok : F.event c s ev = .ok s') :
    Goes.Grown c.arch (freed [ev]) s s' ∧ (∀ w, s.val w = none → s'.val w = none ∨ ∃ op, ev = .define w op) ∧
      ∀ L m σ, HomesOn c.arch L s m σ →
        HomesOn c.arch L s' (s.after s' m) (ev.ghost s' (s.after s' m) σ) := by
  cases ev with
  | evict r =>
    obtain ⟨v, a, -, ha, hlock, hr, rfl⟩ := evictReg_ok hok
    exact ⟨h.evicted hlock ha hr,
      fun w hw => .inl ((Function.update_of_ne (ne_of_val ha hw) ..).trans hw), carries_evicted ha hr⟩
  | load v =>
    obtain ⟨hgo, hcar, hnone⟩ := h.load hok
    exact ⟨hgo, fun w hw => .inl (hnone w hw), hcar⟩
  | define v op =>
    obtain ⟨hgo, -, -, hnone, hh⟩ := h.define hF hok
    refine ⟨hgo, fun w hw => ?_, hh⟩
    by_cases hv : w = v
    · exact .inr ⟨op, by rw [hv]⟩
    · exact .inl (hnone w hv hw)
  | free v =>
    obtain ⟨hgo, hval, hcode⟩ := h.free hok
    refine ⟨hgo.mono (fun _ a a' heq => heq ▸ .refl a) (List.Subset.refl _), fun w hw => .inl ?_,
      carries_free hval hcode⟩
    rw [hval, Function.update_apply, hw, ite_self]

theorem bind_eq_ok {α β : Type} {x : Except Stop α} {f : α → Except Stop β} {b : β} :
    (x >>= f) = .ok b ↔ ∃ a, x = .ok a ∧ f a = .ok b := by
  cases x with
  | error e => simp [bind, Except.bind]
  | ok a => simp [ok_bind]

/-- The events of a block as far as the assignments go. -/
theorem Good.events (hF : F.Fits c.arch) (h : Good c.arch s) {evs : List Event}
    (hok : evs.foldlM (F.event c) s = .ok s') :
    Goes.Grown c.arch (freed evs) s s' ∧ (∀ w, s.val w = none → s'.val w = none ∨ ∃ op, .define w op ∈ evs) ∧
      ∀ v op, .define v op ∈ evs → v ∉ freed evs → s.val v = none ∧ ∃ a, s'.val v = some a ∧ a.HasHome := by
  induction evs generalizing s with
  | nil =>
    obtain rfl := Except.ok.inj hok
    exact ⟨.refl h fun _ => .refl, fun _ => .inl, by simp⟩
  | cons ev evs ih =>
    rw [List.foldlM_cons, bind_eq_ok] at hok
    obtain ⟨s₁, hev, hok⟩ := hok
    obtain ⟨hgo₁, hnone₁, -⟩ := h.event hF hev
    obtain ⟨hgo, hnone, hdef⟩ := ih hgo₁.good hok
    have hfreed : freed (ev :: evs) = freed [ev] ++ freed evs := by
      rw [freed, freed, freed, ← List.filterMap_append, List.singleton_append]
    rw [hfreed]
    refine ⟨hgo₁.grown_trans hgo, fun w hw => ?_, fun v op hmem hv => ?_⟩
    · rcases hnone₁ w hw with hw | ⟨op, rfl⟩
      · exact (hnone w hw).imp_right fun ⟨op, hop⟩ => ⟨op, List.mem_cons_of_mem _ hop⟩
      · exact .inr ⟨op, List.mem_cons_self⟩
    · rw [List.mem_append, not_or] at hv
      rcases List.mem_cons.mp hmem with rfl | hmem
      · obtain ⟨-, hnew, ⟨a, ha, hhome⟩, -⟩ := h.define hF hev
        obtain ⟨a', ha', hr⟩ := hgo.keeps v a ha hv.2
        exact ⟨hnew, a', ha', hr.home hhome⟩
      · obtain ⟨hnew, hhome⟩ := hdef v op hmem hv.2
        refine ⟨?_, hhome⟩
        -- it would still have its assignment
        by_contra hsome
        obtain ⟨a, ha⟩ := Option.ne_none_iff_exists'.mp hsome
        obtain ⟨a', ha', -⟩ := hgo₁.keeps v a ha hv.1
        rw [hnew] at ha'
        cases ha'

/-- The events of a block as far as the code goes. -/
theorem Good.runEvents (hF : F.Fits c.arch) (h : Good c.arch s) {evs : List Event} {m m' : Machine Val}
    {σ σ' : Val → Word}
    (hok : F.runEvents c s m σ evs = .ok (s', m', σ')) :
    evs.foldlM (F.event c) s = .ok s' ∧ ∀ L, HomesOn c.arch L s m σ → HomesOn c.arch L s' m' σ' := by
  induction evs generalizing s m σ with
  | nil =>
    obtain ⟨rfl, rfl, rfl⟩ : s = s' ∧ m = m' ∧ σ = σ' := by simpa [Flow.runEvents] using hok
    exact ⟨rfl, fun L => id⟩
  | cons ev evs ih =>
    rw [Flow.runEvents, bind_eq_ok] at hok
    obtain ⟨s₁, hev, hok⟩ := hok
    obtain ⟨hgo₁, -, hh₁⟩ := h.event hF hev
    obtain ⟨hfold, hh⟩ := ih hgo₁.good hok
    refine ⟨?_, fun L hL => hh L (hh₁ L m σ hL)⟩
    rw [List.foldlM_cons, hev, ok_bind, hfold]

/-- An assignment is there no more, or as it was. -/
theorem Good.frees_val {arch : Arch} (h : Good arch s) {vs : List Val}
    (hok : vs.foldlM St.free s = .ok s') (v : Val) :
    s'.val v = none ∨ s'.val v = s.val v := by
  induction vs generalizing s with
  | nil =>
    obtain rfl := Except.ok.inj hok
    exact .inr rfl
  | cons w vs ih =>
    rw [List.foldlM_cons, bind_eq_ok] at hok
    obtain ⟨s₁, hfree, hok⟩ := hok
    obtain ⟨hgo₁, hval₁, -⟩ := h.free hfree
    rcases ih hgo₁.good hok with hnone | heq
    · exact .inl hnone
    · rw [hval₁, Function.update_apply] at heq
      split at heq
      · exact .inl heq
      · exact .inr heq

/-- The assignments of some values are freed. -/
theorem Good.frees {arch : Arch} (h : Good arch s) {vs : List Val} (hok : vs.foldlM St.free s = .ok s') :
    Goes arch (fun _ a a' => a' = a) vs s s' ∧ s'.code = s.code ∧ ∀ v, s.val v = none → s'.val v = none := by
  induction vs generalizing s with
  | nil =>
    obtain rfl := Except.ok.inj hok
    exact ⟨.refl h fun _ _ => rfl, rfl, fun _ => id⟩
  | cons v vs ih =>
    rw [List.foldlM_cons, bind_eq_ok] at hok
    obtain ⟨s₁, hfree, hok⟩ := hok
    obtain ⟨hgo₁, hval₁, hcode₁⟩ := h.free hfree
    obtain ⟨hgo, hcode, hnone⟩ := ih hgo₁.good hok
    refine ⟨Goes.trans (fun _ _ _ _ h₁ h₂ => h₂.trans h₁) hgo₁ hgo, hcode.trans hcode₁,
      fun w hw => hnone w ?_⟩
    rw [hval₁, Function.update_apply, hw, ite_self]

end

end Tpde.Values
