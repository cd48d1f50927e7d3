import Tpde.Target.AddrExpr

/-!
# Address expressions on AArch64

Base and index are added by one instruction, with a shift or a product through the
permanent scratch register. Every expression is computed right (`gvalExprAsRegA64_ok`).
-/

namespace Tpde.Values

open RegMachine

/-! ### The code -/

namespace Config

variable (c : Config)

/-- `permanent_scratch_reg`. -/
def scratchA64 : Reg := 16

/-- A register for the result: an owned one of those given, or a new one. -/
def resultA64 (s : St) : List (Option Holder) → Except Stop (Reg × St)
  | some (.scratch r) :: _ => .ok (r, s)
  | _ :: hs => resultA64 s hs
  | [] => c.allocScratch s

/-- Adds the displacement, as an immediate or through the scratch register. -/
def addDispA64 (s : St) (dst : Reg) (disp : Word) : St :=
  if disp ≠ 0 then
    if c.encodes disp then s.emits [.set dst (.addImm dst disp)]
    else s.emits [.set scratchA64 (.movImm disp), .set dst (.add dst scratchA64)]
  else s

/-- Whose register the result may take over, in this order. -/
def holdersA64 (e : Expr) : List (Option Holder) :=
  match e.baseReg, e.indexReg with
  | none, none => []
  | none, some _ => [e.index]
  | some _, some _ => [e.base, e.index]
  | some _, none => [e.base]

/-- Base and index into the result, and which displacement is left. -/
def sumA64 (e : Expr) (dst : Reg) : Word × List (Instr Val Op) :=
  match e.baseReg, e.indexReg with
  | none, none => (0, [.set dst (.movImm e.disp)])
  | none, some idx =>
    (e.disp, if isPow2 e.scale then [.set dst (.shl idx e.scale.ctz.toNat)]
      else [.set scratchA64 (.movImm e.scale), .set dst (.mul idx scratchA64)])
  | some base, some idx =>
    (e.disp, if isPow2 e.scale then [.set dst (.addLsl base idx e.scale.ctz.toNat)]
      else [.set scratchA64 (.movImm e.scale), .set dst (.madd idx scratchA64 base)])
  | some base, none =>
    if e.disp ≠ 0 ∧ c.encodes e.disp then (0, [.set dst (.addImm base e.disp)])
    else (e.disp, if dst ≠ base then [.set dst (.mov base)] else [])

/-- `gval_expr_as_reg` on AArch64. -/
def gvalExprAsRegA64 (s : St) (e : Expr) : Except Stop (Reg × St) := do
  let (dst, s) ← c.resultA64 s (holdersA64 e)
  let s := c.addDispA64 (s.emits (c.sumA64 e dst).2) dst (c.sumA64 e dst).1
  let s ← s.dropHolder e.base dst
  return (dst, ← s.dropHolder e.index dst)

end Config

/-! ### The result -/

section
variable {c : Config} {s s' : St} {dst r : Reg} {K rest : Multiset Reg} {e : Expr}

theorem resultA64_ok (h : Ready c.arch s e rest) (hs : List (Option Holder))
    (hmem : ∀ x ∈ hs, x = e.base ∨ x = e.index) :
    ∃ dst s', c.resultA64 s hs = .ok (dst, s') ∧ Selected c.arch s s' e rest dst := by
  induction hs with
  | nil => exact Selected.alloc h
  | cons x hs ih =>
    have htail := ih fun y hy => hmem y (List.mem_cons_of_mem _ hy)
    rcases x with _ | ⟨r | r⟩
    · exact htail
    · exact htail
    · refine ⟨r, s, rfl, .of_mem h ?_⟩
      rcases hmem _ List.mem_cons_self with hx | hx <;> simp [Expr.owned, ← hx, Holder.owned]

/-- The permanent scratch register is never allocated. -/
theorem scratchA64_writable (harch : c.arch = .a64) (s : St) : Writable c.arch s Config.scratchA64 := by
  rw [harch]
  exact .inr (by decide)

theorem scratchA64_ne (harch : c.arch = .a64) (h : Owns c.arch s dst K) (hr : Readable c.arch dst K r) :
    r ≠ Config.scratchA64 := by
  rintro rfl
  have hfree := (scratchA64_writable harch s).resolve_left fun hu => by
    have := h.regs.usable _ (by rw [hu]; simp)
    rw [harch] at this
    exact absurd this (by decide)
  rcases hr with hr | hr | hr
  · exact hfree.1 (h.regs.usable _ (by rw [hr, h.temp]; simp))
  · exact hfree.1 (h.regs.usable _ (h.regs.used _ (Multiset.mem_cons_of_mem hr)))
  · exact hfree.2 hr

/-- Code on the result and the permanent scratch register. -/
theorem Owns.emitsA64 (harch : c.arch = .a64) (h : Owns c.arch s dst K) (code : List (Instr Val Op))
    (hcode : Writes [Config.scratchA64, dst] code) :
    Owns c.arch (s.emits code) dst K ∧ Keeps c.arch K s (s.emits code) := by
  refine ⟨⟨h.regs.emits code, h.temp⟩, .emits h.regs hcode ?_ ?_⟩
  · simpa using ⟨scratchA64_writable harch s, .inl h.temp⟩
  · simp only [List.mem_cons, List.not_mem_nil, or_false, forall_eq_or_imp, forall_eq]
    exact ⟨fun hm => scratchA64_ne harch h (.inr (.inl hm)) rfl, h.notMem⟩

theorem holdersA64_mem (e : Expr) : ∀ x ∈ Config.holdersA64 e, x = e.base ∨ x = e.index := by
  unfold Config.holdersA64
  split <;> simp

theorem sumA64_ok (harch : c.arch = .a64) (h : Owns c.arch s dst K)
    (hread : ∀ r, e.baseReg = some r ∨ e.indexReg = some r → Readable c.arch dst K r) :
    Owns c.arch (s.emits (c.sumA64 e dst).2) dst K ∧ Keeps c.arch K s (s.emits (c.sumA64 e dst).2) ∧
      ∀ m : Machine Val, (run Op.eval m (c.sumA64 e dst).2).reg dst + (c.sumA64 e dst).1 = e.eval m.reg := by
  have hdst : dst ≠ Config.scratchA64 := scratchA64_ne harch h (.inl rfl)
  have hne : ∀ r, e.baseReg = some r ∨ e.indexReg = some r → r ≠ Config.scratchA64 :=
    fun r hr => scratchA64_ne harch h (hread r hr)
  rw [← and_assoc]
  constructor
  · apply h.emitsA64 harch
    unfold Config.sumA64 Writes
    split
    · simp
    · split <;> simp
    · split <;> simp
    · split
      · simp
      · split <;> simp
  · intro m
    unfold Config.sumA64 Expr.eval
    cases hb : e.baseReg with
    | none =>
      cases hi : e.indexReg with
      | none => simp [exec, Op.eval]
      | some idx =>
        have hscale := e.scale_ne (hi ▸ rfl)
        have hidx := hne idx (.inr hi)
        dsimp only
        split
        · rename_i hpow
          simp only [run_cons, run_nil, exec, Op.eval, Function.update_self,
            Nat.mod_eq_of_lt (ctz_lt hscale hpow), shiftLeft_ctz hscale hpow]
          simp
        · simp [exec, Op.eval, Function.update_of_ne hidx]
    | some b =>
      have hbase := hne b (.inl hb)
      cases hi : e.indexReg with
      | none =>
        dsimp only
        split
        · simp [exec, Op.eval]
        · split
          · simp [exec, Op.eval]
          · rename_i heq
            rw [not_not] at heq
            simp [heq]
      | some idx =>
        have hscale := e.scale_ne (hi ▸ rfl)
        have hidx := hne idx (.inr hi)
        dsimp only
        split
        · rename_i hpow
          simp only [run_cons, run_nil, exec, Op.eval, Function.update_self, shiftLeft_ctz hscale hpow,
            Option.elim_some]
        · simp [exec, Op.eval, Function.update_of_ne hidx, Function.update_of_ne hbase,
            BitVec.add_comm (m.reg b)]

theorem addDispA64_ok (harch : c.arch = .a64) (disp : Word) (h : Owns c.arch s dst K) :
    Owns c.arch (c.addDispA64 s dst disp) dst K ∧ Keeps c.arch K s (c.addDispA64 s dst disp) ∧
      ∀ m, (s.after (c.addDispA64 s dst disp) m).reg dst = m.reg dst + disp := by
  have hdst : dst ≠ Config.scratchA64 := scratchA64_ne harch h (.inl rfl)
  unfold Config.addDispA64
  split
  · split
    · obtain ⟨ho, hk⟩ := h.emits [.set dst (.addImm dst disp)] (by simp [Writes])
      exact ⟨ho, hk, fun m => by simp [exec, Op.eval]⟩
    · obtain ⟨ho, hk⟩ :=
        h.emitsA64 harch [.set Config.scratchA64 (.movImm disp), .set dst (.add dst Config.scratchA64)]
        (by simp [Writes])
      exact ⟨ho, hk, fun m => by simp [exec, Op.eval, Function.update_of_ne hdst]⟩
  · rename_i hzero
    rw [not_not] at hzero
    exact ⟨h, Keeps.refl .., fun m => by simp [St.after_self, hzero]⟩

/-- **What AArch64 computes**: a register with the value, for every expression. -/
theorem gvalExprAsRegA64_ok (harch : c.arch = .a64) (h : Ready c.arch s e rest) :
    ∃ dst s', c.gvalExprAsRegA64 s e = .ok (dst, s') ∧ Materialises c.arch s s' e rest dst := by
  obtain ⟨dst, s₁, hres, hs⟩ := resultA64_ok h (Config.holdersA64 e) (holdersA64_mem e)
  obtain ⟨ho₂, hk₂, hv₂⟩ := sumA64_ok (e := e) harch hs.owns fun r hr => hs.readable h hr
  obtain ⟨ho₃, hk₃, hv₃⟩ := addDispA64_ok harch (c.sumA64 e dst).1 ho₂
  have ht : ∀ r ∈ e.owned, (c.addDispA64 (s₁.emits (c.sumA64 e dst).2) dst (c.sumA64 e dst).1).used r =
    some none := by
    intro r hr
    by_cases heq : r = dst
    · exact heq ▸ ho₃.temp
    · have hmem : r ∈ e.owned.erase dst + rest :=
        Multiset.mem_add.mpr (.inl ((Multiset.mem_erase_of_ne heq).mpr hr))
      rw [hk₃.used r hmem, hk₂.used r hmem]
      exact hs.temp h hr
  obtain ⟨s₄, s₅, hs₄, hs₅, ho₅, hk₅, hc₅⟩ := ho₃.dropHolders ht
  have hk₁ := hs.keeps.mono fun r hr => Multiset.mem_add.mpr (.inr hr)
  have hk₂' := hk₂.mono fun r hr => Multiset.mem_add.mpr (.inr hr)
  have hk₃' := hk₃.mono fun r hr => Multiset.mem_add.mpr (.inr hr)
  refine ⟨dst, s₅, ?_, ho₅, hk₁.trans (hk₂'.trans (hk₃'.trans hk₅)), fun m => ?_⟩
  · simp only [Config.gvalExprAsRegA64, hres, ok_bind, hs₄, hs₅]
    rfl
  · have hlast (t : St) (m : Machine Val) (hc : s₅.code = t.code) (t' : St) :
      t'.after s₅ m = t'.after t m := by simp only [St.after, hc]
    rw [← St.after_after hk₁.code (hk₂'.trans (hk₃'.trans hk₅)).code,
      ← St.after_after hk₂'.code (hk₃'.trans hk₅).code,
      hlast _ _ hc₅, hv₃, St.after_emits, hv₂, hs.reg]

end

end Tpde.Values
