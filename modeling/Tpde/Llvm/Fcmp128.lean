import Mathlib
import Tpde.Llvm.IcmpA64

/-!
# Comparisons of 128-bit floats

`compile_fcmp` lowers a comparison of two `fp128` values to a call of a runtime routine,
which returns an `int`, and a comparison of that `int` with zero (`compile_i32_cmp_zero`).
The routines and comparisons fit together for every predicate, unordered operands included
(`eval_compileFcmp`). AArch64 compares the 32 bits of the `int`. x86-64 tests all 64 bits
of the register, of which the routine leaves the upper half as it likes: the result is
right exactly where that half keeps what the `int` says (`lowered_correct_iff`).
-/

namespace Tpde.Fcmp128

open Icmp SubFlags

/-! ### The comparison -/

/-- How two numbers compare. -/
inductive Rel where
  | lt | eq | gt | unordered
  deriving DecidableEq, Repr

/-- The predicate of an `fcmp`. -/
inductive FcmpPredicate where
  | false | oeq | ogt | oge | olt | ole | one | ord | uno | ueq | ugt | uge | ult | ule | une | true
  deriving DecidableEq, Repr

/-- Whether the predicate is true of a relation. -/
def FcmpPredicate.eval (p : FcmpPredicate) (r : Rel) : Bool :=
  match p with
  | false => Bool.false
  | oeq => r = .eq
  | ogt => r = .gt
  | oge => r = .gt ∨ r = .eq
  | olt => r = .lt
  | ole => r = .lt ∨ r = .eq
  | one => r = .lt ∨ r = .gt
  | ord => r ≠ .unordered
  | uno => r = .unordered
  | ueq => r = .unordered ∨ r = .eq
  | ugt => r = .unordered ∨ r = .gt
  | uge => r ≠ .lt
  | ult => r = .unordered ∨ r = .lt
  | ule => r ≠ .gt
  | une => r ≠ .eq
  | true => Bool.true

/-- An `fp128` value: a sign, 15 bits of exponent and 112 of mantissa. -/
abbrev Quad := BitVec 128

namespace Quad

/-- The value without its sign. -/
def magnitude (x : Quad) : ℕ := (x.setWidth 127).toNat

/-- The exponent is all ones, and the mantissa is not zero. -/
def isNaN (x : Quad) : Bool := 0x7fff * 2 ^ 112 < x.magnitude

/-- The values in their order. The two zeros are one. -/
def key (x : Quad) : ℤ := if x.msb then -x.magnitude else x.magnitude

/-- The comparison. -/
def compare (x y : Quad) : Rel :=
  if x.isNaN ∨ y.isNaN then .unordered
  else if x.key < y.key then .lt
  else if x.key = y.key then .eq
  else .gt

end Quad

/-! ### The routines -/

/-- The routines for comparisons. -/
inductive LibFunc where
  | eqtf2 | netf2 | gttf2 | getf2 | lttf2 | letf2 | unordtf2
  deriving DecidableEq, Repr

/-- What a routine documents of the `int` it returns. -/
def LibFunc.Returns (f : LibFunc) (r : Rel) (v : BitVec 32) : Prop :=
  match f with
  | eqtf2 => v = 0 ↔ r = .eq
  | netf2 => v = 0 ↔ r = .eq
  | gttf2 => 0 < v.toInt ↔ r = .gt
  | getf2 => 0 ≤ v.toInt ↔ r = .gt ∨ r = .eq
  | lttf2 => v.toInt < 0 ↔ r = .lt
  | letf2 => v.toInt ≤ 0 ↔ r = .lt ∨ r = .eq
  | unordtf2 => v = 0 ↔ r ≠ .unordered

instance (f : LibFunc) (r : Rel) (v : BitVec 32) : Decidable (f.Returns r v) :=
  match f with
  | .eqtf2 | .netf2 => inferInstanceAs (Decidable (v = 0 ↔ r = .eq))
  | .gttf2 => inferInstanceAs (Decidable (0 < v.toInt ↔ r = .gt))
  | .getf2 => inferInstanceAs (Decidable (0 ≤ v.toInt ↔ r = .gt ∨ r = .eq))
  | .lttf2 => inferInstanceAs (Decidable (v.toInt < 0 ↔ r = .lt))
  | .letf2 => inferInstanceAs (Decidable (v.toInt ≤ 0 ↔ r = .lt ∨ r = .eq))
  | .unordtf2 => inferInstanceAs (Decidable (v = 0 ↔ r ≠ .unordered))

/-- The routines leave their `int` in the low half of a register, and anything in the high
half. -/
def Conforms (call : LibFunc → Quad → Quad → BitVec 64) : Prop :=
  ∀ (f : LibFunc) (x y : Quad), f.Returns (x.compare y) ((call f x y).setWidth 32)

/-! ### The lowering -/

/-- What a comparison becomes: a constant, or a routine and the comparison of its result
with zero. -/
inductive Lowering where
  | const (val : BitVec 64)
  | call (sym : LibFunc) (pred : Predicate)
  deriving DecidableEq, Repr

/-- `compile_fcmp` of `fp128` operands. -/
def compileFcmp : FcmpPredicate → Option Lowering
  | .false => some (.const 0)
  | .true => some (.const 1)
  | .oeq => some (.call .eqtf2 .eq)
  | .une => some (.call .netf2 .ne)
  | .ogt => some (.call .gttf2 .sgt)
  | .ule => some (.call .gttf2 .sle)
  | .oge => some (.call .getf2 .sge)
  | .ult => some (.call .getf2 .slt)
  | .olt => some (.call .lttf2 .slt)
  | .uge => some (.call .lttf2 .sge)
  | .ole => some (.call .letf2 .sle)
  | .ugt => some (.call .letf2 .sgt)
  | .ord => some (.call .unordtf2 .eq)
  | .uno => some (.call .unordtf2 .ne)
  | .one | .ueq => none

/-- Every predicate but two is accepted. -/
theorem compileFcmp_isSome (p : FcmpPredicate) : (compileFcmp p).isSome ↔ p ≠ .one ∧ p ≠ .ueq := by
  cases p <;> decide

/-- **The comparison that goes with a routine, on the `int` it returns, is the predicate,**
also of operands that are unordered. -/
theorem eval_compileFcmp {p : FcmpPredicate} {sym : LibFunc} {pred : Predicate}
    (h : compileFcmp p = some (.call sym pred))
    {r : Rel} {v : BitVec 32} (hv : sym.Returns r v) : pred.eval v 0 = p.eval r := by
  rw [Bool.eq_iff_iff]
  cases p <;> cases h <;> simp only [LibFunc.Returns] at hv <;>
    simp only [Predicate.eval, FcmpPredicate.eval, decide_eq_true_eq, beq_iff_eq, bne_iff_ne,
      BitVec.slt, BitVec.sle] <;>
    cases r <;> simp_all

/-! ### The targets -/

/-- What a target supplies: how it moves a part of some size, and `compile_i32_cmp_zero`. -/
structure Target (Inst : Type) where
  exec : Inst → State → State
  mov : Reg → Reg → ℕ → List Inst
  compileI32CmpZero : Reg → Predicate → List Inst

/-- x86-64 tests 64 bits. -/
def x64 (shiftFlags : Flags) : Target IcmpX64.Inst where
  exec := IcmpX64.exec shiftFlags
  mov dst src size := if 4 < size then [.mov64rr dst src] else [.mov32rr dst src]
  compileI32CmpZero reg pred := [.test 64 reg reg, .setcc8r (.ofPredicate pred) reg, .movzx 8 reg reg]

/-- AArch64 compares 32 bits. -/
def a64 : Target IcmpA64.Inst where
  exec := IcmpA64.exec
  mov dst src size := if 4 < size then [.mov 64 dst src] else [.mov 32 dst src]
  compileI32CmpZero reg pred := [.cmpi 32 reg 0, .csetw reg (.ofPredicate pred)]

section
variable {Inst : Type} (T : Target Inst) (call : LibFunc → Quad → Quad → BitVec 64)

/-- The code after a call that returned in `ret`. A result with a fixed register is moved
there (`set_value_reg`), else it takes `ret`. An `i1` has one byte. -/
def afterCall (fixed : Option Reg) (ret : Reg) (pred : Predicate) : List Inst :=
  match fixed with
  | some r => T.mov r ret 1 ++ T.compileI32CmpZero r pred
  | none => T.compileI32CmpZero ret pred

/-- The register of the result, from the state `s` in which the routine returns. There is
none for a predicate that is not accepted. -/
def lowered (fixed : Option Reg) (ret : Reg) (s : State) (p : FcmpPredicate) (x y : Quad) :
    Option (BitVec 64) :=
  (compileFcmp p).map fun
    | .const val => val
    | .call sym pred =>
      (run T.exec (afterCall T fixed ret pred) (s.set ret (call sym x y))).regs (fixed.getD ret)

/-- The `i1` in the result register is the truth of the predicate. -/
def Correct (fixed : Option Reg) (ret : Reg) (s : State) (p : FcmpPredicate) (x y : Quad) : Prop :=
  ∀ v, lowered T call fixed ret s p x y = some v → v.getLsbD 0 = p.eval (x.compare y)

end

/-! ### The comparison with zero -/

/-- The comparison with zero on AArch64 reads the low half of the register. -/
theorem a64_cmpZero (reg : Reg) (pred : Predicate) (s : State) :
    ((run IcmpA64.exec (a64.compileI32CmpZero reg pred) s).regs reg).getLsbD 0 =
      pred.eval ((s.regs reg).setWidth 32) 0 := by
  have hflags := pred.reads_sub ((s.regs reg).setWidth 32) 0 (by decide)
  simp only [a64, run_cons, run_nil, IcmpA64.exec, State.set_self, IcmpA64.Kind.holds_ofPredicate]
  rw [show (0 : BitVec 64).setWidth 32 = 0 from rfl, hflags]
  simp

/-- The comparison with zero on x86-64 reads the whole register. -/
theorem x64_cmpZero (shiftFlags : Flags) (reg : Reg) (pred : Predicate) (s : State) :
    ((run (x64 shiftFlags).exec ((x64 shiftFlags).compileI32CmpZero reg pred) s).regs reg).getLsbD 0 =
      pred.eval (s.regs reg) 0 := by
  have hflags := pred.reads_sub (s.regs reg) 0 (by decide)
  rw [IcmpX64.sub_zero_eq_logicFlags] at hflags
  simp only [x64, run_cons, run_nil, IcmpX64.exec, State.set_self, IcmpX64.Jump.holds_ofPredicate,
    BitVec.and_self,
    BitVec.setWidth_eq, hflags]
  rw [BitVec.getLsbD_setWidth, BitVec.getLsbD_setWidth, BitVec.getLsbD_append]
  simp

/-- What the high half of a register must be for its comparison with zero to be that of the
low half. -/
def Keeps (pred : Predicate) (hi lo : BitVec 32) : Prop :=
  match pred with
  | .eq | .ne | .ugt | .ule => lo = 0 → hi = 0
  | .uge | .ult => True
  | .slt | .sge => hi.msb = lo.msb
  | .sgt | .sle => if lo = 0 then hi = 0 ∨ hi.msb = true else hi.msb = lo.msb

instance (pred : Predicate) (hi lo : BitVec 32) : Decidable (Keeps pred hi lo) :=
  match pred with
  | .eq | .ne | .ugt | .ule => inferInstanceAs (Decidable (lo = 0 → hi = 0))
  | .uge | .ult => inferInstanceAs (Decidable True)
  | .slt | .sge => inferInstanceAs (Decidable (hi.msb = lo.msb))
  | .sgt | .sle => inferInstanceAs (Decidable (if lo = 0 then hi = 0 ∨ hi.msb = true else hi.msb = lo.msb))

/-- A comparison with zero reads whether the word is zero, and its sign. -/
theorem eval_zero {w : ℕ} (hw : 0 < w) (pred : Predicate) (v : BitVec w) :
    pred.eval v 0 = pred.reads ⟨v = 0, v.msb, Bool.false, Bool.false⟩ := by
  rw [← pred.reads_sub v 0 hw, IcmpX64.sub_zero_eq_logicFlags, IcmpX64.logicFlags]

/-- The high half of a register. -/
def high (v : BitVec 64) : BitVec 32 := v.extractLsb' 32 32

/-- The low half of a register. -/
def low (v : BitVec 64) : BitVec 32 := v.setWidth 32

theorem eq_zero_iff (v : BitVec 64) : v = 0 ↔ high v = 0 ∧ low v = 0 := by
  constructor
  · rintro rfl
    exact ⟨rfl, rfl⟩
  · rintro ⟨hhi, hlo⟩
    have hhi' : v.toNat / 2 ^ 32 % 2 ^ 32 = 0 := by
      have := congrArg BitVec.toNat hhi
      simpa [high, Nat.shiftRight_eq_div_pow] using this
    have hlo' : v.toNat % 2 ^ 32 = 0 := by
      have := congrArg BitVec.toNat hlo
      simpa [low] using this
    exact BitVec.eq_of_toNat_eq (by simp; omega)

theorem msb_high (v : BitVec 64) : (high v).msb = v.msb := by
  simp [high, BitVec.msb_eq_getLsbD_last]

/-- The comparisons of a register and of its low half agree exactly where the high half
keeps the low one's answer. -/
theorem eval_zero_iff (pred : Predicate) (v : BitVec 64) :
    pred.eval v 0 = pred.eval (low v) 0 ↔ Keeps pred (high v) (low v) := by
  have hzero := eq_zero_iff v
  have hlo : low v = 0 → (low v).msb = Bool.false := fun h => by rw [h]; rfl
  have hhi : high v = 0 → (high v).msb = Bool.false := fun h => by rw [h]; rfl
  rw [eval_zero (by decide), eval_zero (by decide), ← msb_high]
  by_cases h : low v = 0 <;> by_cases h' : high v = 0 <;>
    cases pred <;> simp_all [Predicate.reads, Flags.less, Keeps]

/-- The register that x86-64 tests. A move of one byte clears the high half. -/
def tested (fixed : Option Reg) (v : BitVec 64) : BitVec 64 := if fixed.isSome then (low v).setWidth 64 else v

theorem low_tested (fixed : Option Reg) (v : BitVec 64) : low (tested fixed v) = low v := by
  unfold tested
  split
  · simp [low]
  · rfl

/-! ### The result -/

section
variable {call : LibFunc → Quad → Quad → BitVec 64} (hcall : Conforms call)
variable (fixed : Option Reg) (ret : Reg) (s : State)
include hcall

/-- The routine's `int` compares with zero as the operands do. -/
theorem eval_call {p : FcmpPredicate} {sym : LibFunc} {pred : Predicate}
    (h : compileFcmp p = some (.call sym pred))
    (x y : Quad) : pred.eval (low (call sym x y)) 0 = p.eval (x.compare y) :=
  eval_compileFcmp h (hcall sym x y)

theorem correct_iff {Inst : Type} (T : Target Inst) (p : FcmpPredicate) (x y : Quad) :
    Correct T call fixed ret s p x y ↔ ∀ sym pred, compileFcmp p = some (.call sym pred) →
      ((run T.exec (afterCall T fixed ret pred) (s.set ret (call sym x y))).regs (fixed.getD ret)).getLsbD 0 =
        pred.eval (low (call sym x y)) 0 := by
  unfold Correct lowered
  cases h : compileFcmp p with
  | none => simp
  | some l =>
    cases l with
    | const val =>
      have : val.getLsbD 0 = p.eval (x.compare y) := by
        cases p <;> cases h <;> rfl
      simpa using this
    | call sym pred =>
      rw [← eval_call hcall h x y]
      simp

/-- **AArch64 gets every comparison right.** -/
theorem a64_correct (p : FcmpPredicate) (x y : Quad) : Correct a64 call fixed ret s p x y := by
  rw [correct_iff hcall]
  intro sym pred _
  cases fixed with
  | none =>
    rw [afterCall, show a64.exec = IcmpA64.exec from rfl, Option.getD_none, a64_cmpZero, State.set_self, low]
  | some r =>
    rw [afterCall, show a64.exec = IcmpA64.exec from rfl, run_append, Option.getD_some, a64_cmpZero]
    simp [a64, IcmpA64.exec, low]

/-- **x86-64 gets a comparison right exactly where the register it tests keeps the answer
of its low half.** -/
theorem x64_correct_iff (shiftFlags : Flags) (p : FcmpPredicate) (x y : Quad) :
    Correct (x64 shiftFlags) call fixed ret s p x y ↔ ∀ sym pred, compileFcmp p = some (.call sym pred) →
      Keeps pred (high (tested fixed (call sym x y))) (low (call sym x y)) := by
  rw [correct_iff hcall]
  refine forall_congr' fun sym => forall_congr' fun pred => imp_congr_right fun _ => ?_
  have hreg :
    ((run (x64 shiftFlags).exec (afterCall (x64 shiftFlags) fixed ret pred) (s.set ret (call sym x y))).regs
      (fixed.getD ret)).getLsbD 0 = pred.eval (tested fixed (call sym x y)) 0 := by
    cases fixed with
    | none => rw [afterCall, Option.getD_none, x64_cmpZero, State.set_self, tested, if_neg (by simp)]
    | some r =>
      rw [afterCall, run_append, Option.getD_some, x64_cmpZero]
      simp [x64, IcmpX64.exec, tested, low]
  rw [hreg, ← low_tested fixed, ← eval_zero_iff, low_tested]

end

/-- The machines. -/
inductive Arch where
  | x64 (shiftFlags : Flags)
  | a64

/-- The `i1` is the truth of the predicate, on either machine. -/
def Arch.Correct (arch : Arch) (call : LibFunc → Quad → Quad → BitVec 64) (fixed : Option Reg)
    (ret : Reg) (s : State)
    (p : FcmpPredicate) (x y : Quad) : Prop :=
  match arch with
  | .x64 shiftFlags => Fcmp128.Correct (Fcmp128.x64 shiftFlags) call fixed ret s p x y
  | .a64 => Fcmp128.Correct Fcmp128.a64 call fixed ret s p x y

/-- The comparison is not the test of an `int` on x86-64, or the test of 64 bits gives the
answer for its 32. -/
def Arch.KeepsInt (arch : Arch) (call : LibFunc → Quad → Quad → BitVec 64) (fixed : Option Reg)
    (p : FcmpPredicate)
    (x y : Quad) : Prop :=
  match arch with
  | .x64 _ => ∀ sym pred, compileFcmp p = some (.call sym pred) →
      Keeps pred (high (tested fixed (call sym x y))) (low (call sym x y))
  | .a64 => True

/-- **The result of a comparison is right exactly on AArch64, for a constant, or where the
high half of the register that x86-64 tests keeps the answer of the `int`.** -/
theorem lowered_correct_iff {call : LibFunc → Quad → Quad → BitVec 64} (hcall : Conforms call) (arch : Arch)
    (fixed : Option Reg) (ret : Reg) (s : State) (p : FcmpPredicate) (x y : Quad) :
    arch.Correct call fixed ret s p x y ↔ arch.KeepsInt call fixed p x y := by
  cases arch with
  | a64 => exact iff_of_true (a64_correct hcall fixed ret s p x y) trivial
  | x64 shiftFlags => exact x64_correct_iff hcall fixed ret s shiftFlags p x y

/-- A routine as the runtime libraries for x86-64 have them: they return the number as a
word of the machine, of which the `int` is the lower half. -/
def softRoutine (f : LibFunc) (x y : Quad) : BitVec 64 :=
  let int : BitVec 32 :=
    match x.compare y with
    | .lt => if f = .unordtf2 then 0 else -1
    | .eq => 0
    | .gt => if f = .unordtf2 then 0 else 1
    | .unordered => if f = .gttf2 ∨ f = .getf2 then -2 else 2
  int.signExtend 64

theorem conforms_softRoutine : Conforms softRoutine := by
  intro f x y
  rw [softRoutine]
  cases x.compare y <;> cases f <;> decide

/-- One, and two. -/
def one : Quad := 0x3fff * 2 ^ 112

def two : Quad := 0x4000 * 2 ^ 112

/-- One is less than two, and a comparison with its result in a fixed register says that it
is not: `-1` as an `int`, moved there, is positive as a number of 64 bits. -/
theorem lowered_olt_wrong :
    ¬ ∀ (call : LibFunc → Quad → Quad → BitVec 64), Conforms call →
      ∀ (arch : Arch) (fixed : Option Reg) (ret : Reg)
      (s : State) (p : FcmpPredicate) (x y : Quad), arch.Correct call fixed ret s p x y := by
  intro h
  have hx :=
    h softRoutine conforms_softRoutine (.x64 ⟨Bool.false, Bool.false, Bool.false, Bool.false⟩) (some 3) 0
    ⟨fun _ => 0, ⟨Bool.false, Bool.false, Bool.false, Bool.false⟩⟩ .olt one two 0 (by decide +kernel)
  revert hx
  decide +kernel

/-- Two is greater than one, and the comparison says so. -/
theorem lowered_correct_iff_ogt :
    Arch.Correct (.x64 ⟨Bool.true, Bool.true, Bool.true, Bool.true⟩) softRoutine none 0
    ⟨fun _ => 0, ⟨Bool.false, Bool.false, Bool.false, Bool.false⟩⟩ .ogt two one :=
  (lowered_correct_iff conforms_softRoutine _ none 0 _ .ogt two one).mpr (by
    intro sym pred h
    cases h
    decide +kernel)

end Tpde.Fcmp128
