import Mathlib
import Tpde.Library.DoubleWord

/-!
# Integer operations of 128 bits

`compile_int_binary_op_i128` lowers an operation of two 128-bit integers to code generated
from a C function of the same name, which gets the operands word by word. A shift by a
constant has functions of its own: below 64 bits they take the amount and its complement,
and combine the words themselves. The complement of 0 is computed as 0, not as 64, so that
a shift by the constant 0 mixes the words. Everything else is exact (`compile_exact_iff`).
-/

namespace Tpde.IntBinary128

open DoubleWord

/-! ### The operations -/

/-- The operations on integers. -/
inductive IntBinaryOp where
  | add | sub | mul | udiv | sdiv | urem | srem | land | lor | lxor | shl | shr | ashr
  deriving DecidableEq, Repr

namespace IntBinaryOp

/-- Whether the operation is symmetric. -/
def isSymmetric : IntBinaryOp → Bool
  | add | mul | land | lor | lxor => true
  | _ => false

/-- Whether the operation is signed. -/
def isSigned : IntBinaryOp → Bool
  | sdiv | srem | ashr => true
  | _ => false

def isDiv : IntBinaryOp → Bool
  | udiv | sdiv => true
  | _ => false

def isRem : IntBinaryOp → Bool
  | urem | srem => true
  | _ => false

def isShift : IntBinaryOp → Bool
  | shl | shr | ashr => true
  | _ => false

/-- What the operation computes. -/
def eval {w : ℕ} (op : IntBinaryOp) (x y : BitVec w) : BitVec w :=
  match op with
  | add => x + y
  | sub => x - y
  | mul => x * y
  | udiv => x.udiv y
  | sdiv => x.sdiv y
  | urem => x.umod y
  | srem => x.srem y
  | land => x &&& y
  | lor => x ||| y
  | lxor => x ^^^ y
  | shl => x <<< y.toNat
  | shr => x >>> y.toNat
  | ashr => x.sshiftRight y.toNat

theorem eval_comm {w : ℕ} {op : IntBinaryOp} (h : op.isSymmetric = true) (x y : BitVec w) :
    op.eval x y = op.eval y x := by
  cases op <;> simp only [isSymmetric, Bool.false_eq_true] at h
  case add => exact BitVec.add_comm x y
  case mul => exact BitVec.mul_comm x y
  case land => exact BitVec.and_comm x y
  case lor => exact BitVec.or_comm x y
  case lxor => exact BitVec.xor_comm x y

end IntBinaryOp

/-! ### The functions the code is generated from -/

section
variable (a b : BitVec 128)

def addi128 : BitVec 128 := a + b
def subi128 : BitVec 128 := a - b
def muli128 : BitVec 128 := a * b
def landi128 : BitVec 128 := a &&& b
def lori128 : BitVec 128 := a ||| b
def lxori128 : BitVec 128 := a ^^^ b
def shli128 : BitVec 128 := a <<< b.toNat
def shri128 : BitVec 128 := a >>> b.toNat
def ashri128 : BitVec 128 := a.sshiftRight b.toNat

variable (amt iamt : BitVec 64)

def shli128Lt64 : BitVec 128 :=
  let lo := a.setWidth 64 <<< amt.toNat
  let hi0 := (a.setWidth 64 >>> iamt.toNat).setWidth 128
  let hi1 := ((a >>> 64).setWidth 64 <<< amt.toNat).setWidth 128
  (hi0 ||| hi1) <<< 64 ||| lo.setWidth 128

def shli128Ge64 : BitVec 128 := a <<< (64 + amt.toNat % 64)

def shri128Lt64 : BitVec 128 :=
  let lo0 := a.setWidth 64 >>> amt.toNat
  let lo1 := ((a >>> 64).setWidth 64 <<< iamt.toNat).setWidth 128
  let hi := ((a >>> 64).setWidth 64 >>> amt.toNat).setWidth 128
  hi <<< 64 ||| lo0.setWidth 128 ||| lo1

def shri128Ge64 : BitVec 128 := a >>> (64 + amt.toNat % 64)

def ashri128Lt64 : BitVec 128 :=
  let lo0 := a.setWidth 64 >>> amt.toNat
  let lo1 := ((a >>> 64).setWidth 64 <<< iamt.toNat).setWidth 128
  let hi := (((a >>> 64).setWidth 64).sshiftRight amt.toNat).signExtend 128
  hi <<< 64 ||| lo0.setWidth 128 ||| lo1

def ashri128Ge64 : BitVec 128 := a.sshiftRight (64 + amt.toNat % 64)

end

/-! ### The lowering -/

/-- A 128-bit operand: a constant, or a value with an assignment. -/
inductive Operand where
  | const (v : BitVec 128)
  | value (v : BitVec 128)
  deriving DecidableEq, Repr

namespace Operand

def val : Operand → BitVec 128
  | const v | value v => v

def isConst : Operand → Bool
  | const _ => true
  | value _ => false

/-- The low word. -/
def part0 (o : Operand) : BitVec 64 := o.val.setWidth 64

/-- The high word. -/
def part1 (o : Operand) : BitVec 64 := (o.val >>> 64).setWidth 64

theorem parts (o : Operand) : o.part1 ++ o.part0 = o.val := by
  apply BitVec.eq_of_getLsbD_eq
  intro i hi
  rw [BitVec.getLsbD_append]
  by_cases h : i < 64
  · simp [part0, h]
  · simp [part1, h, show i - 64 < 64 by omega, show 64 + (i - 64) = i by omega]

end Operand

/-- The routines for division. -/
inductive LibFunc where
  | divti3 | udivti3 | modti3 | umodti3
  deriving DecidableEq, Repr

/-- The routine of a division. -/
def libFunc (op : IntBinaryOp) : LibFunc :=
  if op.isDiv then (if op.isSigned then .divti3 else .udivti3)
  else if op.isSigned then .modti3 else .umodti3

/-- `compile_int_binary_op_i128`. A generated function takes only the words that the C
function reads: `unused` is what a register holds in place of the others. -/
def compileIntBinaryOpI128 (unused : BitVec 64) (call : LibFunc → BitVec 128 → BitVec 128 → BitVec 128)
    (op : IntBinaryOp) (lhs rhs : Operand) : BitVec 128 :=
  if op.isDiv || op.isRem then call (libFunc op) lhs.val rhs.val
  else
    let (lhs, rhs) := if op.isSymmetric && lhs.isConst && !rhs.isConst then (rhs, lhs) else (lhs, rhs)
    if op.isShift then
      if rhs.isConst then
        let imm1 := rhs.part0 &&& 0b1111111
        if imm1 < 64 then
          let imm2 := (64 - imm1) &&& 0b111111
          match op with
          | .shl => shli128Lt64 (lhs.part1 ++ lhs.part0) imm1 imm2
          | .shr => shri128Lt64 (lhs.part1 ++ lhs.part0) imm1 imm2
          | _ => ashri128Lt64 (lhs.part1 ++ lhs.part0) imm1 imm2
        else
          let imm1 := imm1 - 64
          match op with
          | .shl => shli128Ge64 (unused ++ lhs.part0) imm1
          | .shr => shri128Ge64 (lhs.part1 ++ unused) imm1
          | _ => ashri128Ge64 (lhs.part1 ++ unused) imm1
      else
        match op with
        | .shl => shli128 (lhs.part1 ++ lhs.part0) (rhs.part0.setWidth 128)
        | .shr => shri128 (lhs.part1 ++ lhs.part0) (rhs.part0.setWidth 128)
        | _ => ashri128 (lhs.part1 ++ lhs.part0) (rhs.part0.setWidth 128)
    else
      let a := lhs.part1 ++ lhs.part0
      let b := rhs.part1 ++ rhs.part0
      match op with
      | .add => addi128 a b
      | .sub => subi128 a b
      | .mul => muli128 a b
      | .land => landi128 a b
      | .lor => lori128 a b
      | _ => lxori128 a b

/-! ### The functions, word by word -/

section
variable (hi lo : BitVec 64) (amt iamt : BitVec 64)

theorem words (hi lo : BitVec 64) :
    (hi ++ lo : BitVec 128).setWidth 64 = lo ∧ ((hi ++ lo : BitVec 128) >>> 64).setWidth 64 = hi := by
  constructor <;> apply BitVec.eq_of_getLsbD_eq <;> intro i h
  · rw [BitVec.getLsbD_setWidth, BitVec.getLsbD_append]
    simp [h]
  · rw [BitVec.getLsbD_setWidth, BitVec.getLsbD_ushiftRight, BitVec.getLsbD_append]
    simp [h]

theorem shli128Lt64_append :
    shli128Lt64 (hi ++ lo) amt iamt = (lo >>> iamt.toNat ||| hi <<< amt.toNat) ++ lo <<< amt.toNat := by
  obtain ⟨hlo, hhi⟩ := words hi lo
  rw [shli128Lt64, hlo, hhi, ← BitVec.setWidth_or]
  exact shiftLeft_or_setWidth _ _

theorem shri128Lt64_append :
    shri128Lt64 (hi ++ lo) amt iamt = hi >>> amt.toNat ++ (lo >>> amt.toNat ||| hi <<< iamt.toNat) := by
  obtain ⟨hlo, hhi⟩ := words hi lo
  rw [shri128Lt64, hlo, hhi, BitVec.or_assoc, ← BitVec.setWidth_or]
  exact shiftLeft_or_setWidth _ _

theorem ashri128Lt64_append :
    ashri128Lt64 (hi ++ lo) amt iamt = hi.sshiftRight amt.toNat ++
      (lo >>> amt.toNat ||| hi <<< iamt.toNat) := by
  obtain ⟨hlo, hhi⟩ := words hi lo
  have hsign (v : BitVec 64) : (v.signExtend 128) <<< 64 = (v.setWidth 128) <<< 64 := by
    apply BitVec.eq_of_getLsbD_eq
    intro i h
    by_cases hi : i < 64
    · simp [-BitVec.getLsbD_eq_getElem, h, hi]
    · simp [-BitVec.getLsbD_eq_getElem, BitVec.getLsbD_signExtend, h, hi, show i - 64 < 64 by omega]
  rw [ashri128Lt64, hlo, hhi, hsign, BitVec.or_assoc, ← BitVec.setWidth_or]
  exact shiftLeft_or_setWidth _ _

end

/-! ### Shifts by a constant -/

section
variable {n : ℕ} {v : BitVec 128} (hv : v.toNat < 128)
include hv

/-- The low word holds an amount that is in range. -/
theorem toNat_part0 : (v.setWidth 64).toNat = v.toNat := by
  rw [BitVec.toNat_setWidth]
  omega

/-- The mask leaves the amount as it is. -/
theorem toNat_imm1 : (v.setWidth 64 &&& 0b1111111).toNat = v.toNat := by
  rw [BitVec.toNat_and, toNat_part0 hv, show (0b1111111 : BitVec 64).toNat = 2 ^ 7 - 1 from rfl,
    Nat.and_two_pow_sub_one_eq_mod]
  omega

end

/-- The complement of an amount below 64, with that of 0 being 0. -/
theorem toNat_imm2 {imm1 : BitVec 64} (h : imm1.toNat < 64) :
    ((64 - imm1) &&& 0b111111).toNat = if imm1.toNat = 0 then 0 else 64 - imm1.toNat := by
  have hsub : (64 - imm1).toNat = 64 - imm1.toNat := by
    rw [BitVec.toNat_sub]
    simp
    omega
  rw [BitVec.toNat_and, hsub, show (0b111111 : BitVec 64).toNat = 2 ^ 6 - 1 from rfl,
    Nat.and_two_pow_sub_one_eq_mod]
  split <;> omega

/-- What a shift by the constant 0 makes of the words. -/
def zeroShift (op : IntBinaryOp) (x : Operand) : BitVec 128 :=
  match op with
  | .shl => (x.part0 ||| x.part1) ++ x.part0
  | _ => x.part1 ++ (x.part0 ||| x.part1)

section
variable (unused : BitVec 64) (call : LibFunc → BitVec 128 → BitVec 128 → BitVec 128)

/-- A shift by a constant below 64 combines the words. -/
theorem compile_const_lt {op : IntBinaryOp} (hop : op.isShift = true) (lhs : Operand) {v : BitVec 128}
    (hv : v.toNat < 64) :
    compileIntBinaryOpI128 unused call op lhs (.const v) =
      if v.toNat = 0 then zeroShift op lhs else op.eval lhs.val v := by
  have hnat := toNat_imm1 (show v.toNat < 128 by omega)
  have himm1 : v.setWidth 64 &&& 0b1111111 < 64 := by
    rw [BitVec.lt_def, hnat]
    exact hv
  have himm2 := toNat_imm2 (show (v.setWidth 64 &&& 0b1111111 : BitVec 64).toNat < 64 by omega)
  rw [hnat] at himm2
  cases op <;> cases hop <;>
    simp only [compileIntBinaryOpI128, IntBinaryOp.isDiv, IntBinaryOp.isRem, IntBinaryOp.isSymmetric,
      IntBinaryOp.isShift,
      Operand.isConst, Operand.part0.eq_1 (.const v), Operand.val.eq_1, Bool.or_self, Bool.false_and,
        if_true, if_false,
      Bool.false_eq_true, himm1, shli128Lt64_append, shri128Lt64_append, ashri128Lt64_append, hnat, himm2]
  all_goals
    by_cases h0 : v.toNat = 0
    · simp [h0, zeroShift]
    rw [if_neg h0, if_neg h0, ← lhs.parts, IntBinaryOp.eval]
  · exact (shiftLeft_append lhs.part1 lhs.part0 hv.le).symm
  · exact (ushiftRight_append lhs.part1 lhs.part0 hv.le).symm
  · exact (sshiftRight_append lhs.part1 lhs.part0 hv.le).symm

/-- A shift by a constant is exact, but for the amount 0. -/
theorem compile_const {op : IntBinaryOp} (hop : op.isShift = true) (lhs : Operand) {v : BitVec 128}
    (hv : v.toNat < 128) :
    compileIntBinaryOpI128 unused call op lhs (.const v) =
      if v.toNat = 0 then zeroShift op lhs else op.eval lhs.val v := by
  by_cases hlt : v.toNat < 64
  · exact compile_const_lt unused call hop lhs hlt
  have hnat := toNat_imm1 hv
  have himm1 : ¬ v.setWidth 64 &&& 0b1111111 < 64 := by
    rw [BitVec.lt_def, hnat]
    exact hlt
  have hsub : 64 + ((v.setWidth 64 &&& 0b1111111) - 64).toNat % 64 = v.toNat := by
    rw [BitVec.toNat_sub_of_le (BitVec.not_lt.mp himm1), hnat, show (64 : BitVec 64).toNat = 64 from rfl]
    omega
  rw [if_neg (by omega)]
  cases op <;> cases hop <;>
    simp only [compileIntBinaryOpI128, IntBinaryOp.isDiv, IntBinaryOp.isRem, IntBinaryOp.isSymmetric,
      IntBinaryOp.isShift,
      Operand.isConst, Operand.part0.eq_1 (.const v), Operand.val.eq_1, Bool.or_self, Bool.false_and,
        if_true, if_false,
      Bool.false_eq_true, himm1, shli128Ge64, shri128Ge64, ashri128Ge64, hsub]
  all_goals rw [← lhs.parts, IntBinaryOp.eval]
  · have hle := shiftLeft_append_of_le (n := v.toNat) unused lhs.part0 (by omega)
    exact hle.trans (shiftLeft_append_of_le lhs.part1 lhs.part0 (by omega)).symm
  · have hle := ushiftRight_append_of_le (n := v.toNat) lhs.part1 unused (by omega)
    exact hle.trans (ushiftRight_append_of_le lhs.part1 lhs.part0 (by omega)).symm
  · have hle := sshiftRight_append_of_le (n := v.toNat) lhs.part1 unused (by omega)
    exact hle.trans (sshiftRight_append_of_le lhs.part1 lhs.part0 (by omega)).symm

/-- A shift by a value is exact. -/
theorem compile_value {op : IntBinaryOp} (hop : op.isShift = true) (lhs : Operand) {v : BitVec 128}
    (hv : v.toNat < 128) :
    compileIntBinaryOpI128 unused call op lhs (.value v) = op.eval lhs.val v := by
  have hamt : ((v.setWidth 64).setWidth 128).toNat = v.toNat := by
    rw [BitVec.toNat_setWidth, toNat_part0 hv]
    omega
  have hpart : ((Operand.value v).part0.setWidth 128).toNat = v.toNat := hamt
  have hlhs := lhs.parts
  cases op <;> cases hop
  · rw [← hlhs]; exact congrArg (fun n => (lhs.part1 ++ lhs.part0) <<< n) hpart
  · rw [← hlhs]; exact congrArg (fun n => (lhs.part1 ++ lhs.part0) >>> n) hpart
  · rw [← hlhs]; exact congrArg (fun n => (lhs.part1 ++ lhs.part0).sshiftRight n) hpart

/-- An operation that is no shift and no division is exact. -/
theorem compile_other {op : IntBinaryOp} (hdiv : (op.isDiv || op.isRem) = false)
    (hop : op.isShift = false) (lhs rhs : Operand) :
    compileIntBinaryOpI128 unused call op lhs rhs = op.eval lhs.val rhs.val := by
  simp only [compileIntBinaryOpI128, hdiv, hop, Bool.false_eq_true, if_false]
  -- The operands may change places.
  generalize hswap : (if op.isSymmetric && lhs.isConst && !rhs.isConst then (rhs, lhs) else (lhs, rhs)) = p
  have hval : op.eval p.1.val p.2.val = op.eval lhs.val rhs.val := by
    split at hswap
    case isTrue h =>
      obtain rfl := hswap.symm
      exact IntBinaryOp.eval_comm (by simp_all) _ _
    case isFalse =>
      obtain rfl := hswap.symm
      rfl
  rw [← hval, p.1.parts, p.2.parts]
  cases op <;> first | rfl | exact absurd hdiv (by decide) | exact absurd hop (by decide)

/-! ### The result -/

/-- The shift is not by the constant 0, or mixing the words changes none of them. -/
def NoMix (op : IntBinaryOp) (lhs rhs : Operand) : Prop :=
  op.isShift = true → rhs.isConst = true → rhs.val = 0 →
    lhs.part0 ||| lhs.part1 = if op = .shl then lhs.part1 else lhs.part0

theorem zeroShift_eq_iff {op : IntBinaryOp} (hop : op.isShift = true) (x : Operand) :
    zeroShift op x = x.val ↔ x.part0 ||| x.part1 = if op = .shl then x.part1 else x.part0 := by
  rw [← x.parts]
  cases op <;> cases hop
  · exact BitVec.append_left_inj x.part0
  · exact BitVec.append_right_inj x.part1
  · exact BitVec.append_right_inj x.part1

/-- A shift by zero is nothing. -/
theorem eval_zero_shift {op : IntBinaryOp} (hop : op.isShift = true) (x : BitVec 128) {v : BitVec 128}
    (hv : v.toNat = 0) :
    op.eval x v = x := by
  cases op <;> cases hop <;> simp [IntBinaryOp.eval, hv]

theorem compile_const_iff {op : IntBinaryOp} (hop : op.isShift = true) (lhs : Operand) {v : BitVec 128}
    (hv : v.toNat < 128) :
    compileIntBinaryOpI128 unused call op lhs (.const v) = op.eval lhs.val v ↔ NoMix op lhs (.const v) := by
  rw [compile_const unused call hop lhs hv]
  by_cases h0 : v.toNat = 0
  · have hv0 : v = 0 := BitVec.eq_of_toNat_eq h0
    rw [if_pos h0, eval_zero_shift hop _ h0, zeroShift_eq_iff hop]
    exact ⟨fun h _ _ _ => h, fun h => h hop rfl hv0⟩
  · rw [if_neg h0]
    exact iff_of_true rfl fun _ _ hv0 => absurd (congrArg BitVec.toNat hv0) h0

/-- **An operation is exact, except where a shift by the constant 0 mixes the words;** so
the code for a constant amount agrees with that for the amount in a register. -/
theorem compile_exact_iff {op : IntBinaryOp} (hop : ¬ (op.isDiv = true ∨ op.isRem = true)) (lhs rhs : Operand)
    (hamt : op.isShift = true → rhs.val.toNat < 128) :
    (compileIntBinaryOpI128 unused call op lhs rhs = op.eval lhs.val rhs.val ↔ NoMix op lhs rhs) ∧
    (op.isShift = true →
      (compileIntBinaryOpI128 unused call op lhs (.const rhs.val) =
        compileIntBinaryOpI128 unused call op lhs (.value rhs.val) ↔ NoMix op lhs (.const rhs.val))) := by
  refine ⟨?_, fun hshift => ?_⟩
  · cases hshift : op.isShift with
    | false =>
      have hdiv : (op.isDiv || op.isRem) = false := by simpa using hop
      exact iff_of_true (compile_other unused call hdiv hshift lhs rhs) fun h =>
        absurd (hshift.symm.trans h) (by simp)
    | true =>
      cases rhs with
      | const v => exact compile_const_iff unused call hshift lhs (hamt hshift)
      | value v => exact iff_of_true (compile_value unused call hshift lhs (hamt hshift)) fun _ h => nomatch h
  · rw [compile_value unused call hshift lhs (hamt hshift)]
    exact compile_const_iff unused call hshift lhs (hamt hshift)

end

/-- A routine call that is not made. -/
def noCall (_ : LibFunc) (x _ : BitVec 128) : BitVec 128 := x

/-- One shifted by zero gets a bit above the low word. -/
theorem compile_shl_zero :
    ¬ ∀ (unused : BitVec 64) (call : LibFunc → BitVec 128 → BitVec 128 → BitVec 128) (op : IntBinaryOp),
    ¬ (op.isDiv = true ∨ op.isRem = true) → ∀ lhs rhs : Operand, (op.isShift = true → rhs.val.toNat < 128) →
      compileIntBinaryOpI128 unused call op lhs rhs = op.eval lhs.val rhs.val := by
  intro h
  have := h 0 noCall .shl (by decide) (.value 1) (.const 0) (by decide)
  revert this
  decide +kernel

/-- A shift by the constant 74 is exact. -/
theorem compile_exact_iff_shr : compileIntBinaryOpI128 0 noCall .shr (.value (2 ^ 127))
    (.const 74) = 2 ^ 53 :=
  ((compile_exact_iff 0 noCall (by decide) (.value (2 ^ 127)) (.const 74) (by decide)).1.mpr
    fun _ _ h => absurd h (by decide)).trans (by decide +kernel)

end Tpde.IntBinary128
