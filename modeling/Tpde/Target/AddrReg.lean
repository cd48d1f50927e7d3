import Tpde.Target.AddrExprA64
import Tpde.Target.AddrExprX64

/-!
# Address expressions on both targets

`gval_expr_as_reg` as the targets' common code calls it, with what each computes.
-/

namespace Tpde.Values

/-- `gval_expr_as_reg` of the target. -/
def Config.gvalExprAsReg (c : Config) (s : St) (e : Expr) : Except Stop (Reg × St) :=
  match c.arch with
  | .x64 => c.gvalExprAsRegX64 s e
  | .a64 => c.gvalExprAsRegA64 s e

section
variable {c : Config} {s : St} {e : Expr} {rest : Multiset Reg}

/-- **On x86-64** `gval_expr_as_reg` computes an expression exactly where it is `OkX64`. -/
theorem gvalExprAsReg_x64_iff (harch : c.arch = .x64) (h : Ready c.arch s e rest) :
    (∃ dst s', c.gvalExprAsReg s e = .ok (dst, s') ∧ Materialises c.arch s s' e rest dst) ↔ e.OkX64 := by
  have heq : c.gvalExprAsReg s e = c.gvalExprAsRegX64 s e := by simp only [Config.gvalExprAsReg, harch]
  simp only [heq]
  exact gvalExprAsRegX64_iff h

/-- **On AArch64** `gval_expr_as_reg` computes every expression. -/
theorem gvalExprAsReg_a64 (harch : c.arch = .a64) (h : Ready c.arch s e rest) :
    ∃ dst s', c.gvalExprAsReg s e = .ok (dst, s') ∧ Materialises c.arch s s' e rest dst := by
  have heq : c.gvalExprAsReg s e = c.gvalExprAsRegA64 s e := by simp only [Config.gvalExprAsReg, harch]
  simp only [heq]
  exact gvalExprAsRegA64_ok harch h

end

theorem gvalExprAsReg_x64_threefold : ∃ dst s', (plain .x64).gvalExprAsReg scratch3 threefold = .ok
    (dst, s') ∧
    Materialises .x64 scratch3 s' threefold 0 dst :=
  (gvalExprAsReg_x64_iff (c := plain .x64) rfl (ready_threefold .x64)).mpr okX64_threefold

theorem gvalExprAsReg_a64_threefold : ∃ dst s', (plain .a64).gvalExprAsReg scratch3 threefold = .ok
    (dst, s') ∧
    Materialises .a64 scratch3 s' threefold 0 dst :=
  gvalExprAsReg_a64 (c := plain .a64) rfl (ready_threefold .a64)

/-- The displacement of an index without base is added twice on x86-64. -/
theorem twofold_not_materialises : Ready .x64 scratch3 twofold 0 ∧
    ¬ ∃ dst s', (plain .x64).gvalExprAsReg scratch3 twofold = .ok (dst, s') ∧
      Materialises .x64 scratch3 s' twofold 0 dst := by
  have hready : Ready .x64 scratch3 twofold 0 := 
    ready_scratch3 .x64 (by decide) fun r hr => hr.elim (fun h => nomatch h) fun h => (Option.some.inj h).symm
  refine ⟨hready, fun hm => ?_⟩
  have hok := (gvalExprAsRegX64_iff (c := plain .x64) hready).mp hm
  exact absurd
    (hok.once rfl rfl (by decide +kernel) (by decide +kernel) (by decide +kernel)) (by decide +kernel)

end Tpde.Values
