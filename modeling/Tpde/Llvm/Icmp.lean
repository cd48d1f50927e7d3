import Mathlib.Data.Finset.Basic
import Tpde.Library.SubFlags

/-!
# Integer comparisons

`compile_icmp` lowers an LLVM `icmp` to instructions that set the flags and to what reads
them: the conditional branch after it, the `zext` or `sext` after it, or an instruction
that writes an `i1`. Here is what the two targets share: the comparison, the operands and
how they get into registers (`load_to_reg`, `into_extended`), and the code of a
conditional branch.
-/

namespace Tpde.Icmp

open SubFlags

/-! ### The comparison -/

/-- The predicate of an `icmp`. -/
inductive Predicate where
  | eq | ne | ugt | uge | ult | ule | sgt | sge | slt | sle
  deriving DecidableEq, Repr

namespace Predicate

variable {w W : ℕ}

/-- The comparison. -/
def eval : Predicate → BitVec w → BitVec w → Bool
  | eq, x, y => x == y
  | ne, x, y => x != y
  | ugt, x, y => y.ult x
  | uge, x, y => y.ule x
  | ult, x, y => x.ult y
  | ule, x, y => x.ule y
  | sgt, x, y => y.slt x
  | sge, x, y => y.sle x
  | slt, x, y => x.slt y
  | sle, x, y => x.sle y

/-- The comparison of the signed numbers. -/
def isSigned : Predicate → Bool
  | sgt | sge | slt | sle => true
  | _ => false

/-- The comparison with the operands swapped. -/
def swap : Predicate → Predicate
  | eq => eq
  | ne => ne
  | ugt => ult
  | uge => ule
  | ult => ugt
  | ule => uge
  | sgt => slt
  | sge => sle
  | slt => sgt
  | sle => sge

/-- The predicates that ask for a zero difference together with a borrow or a sign. -/
def mixed : Predicate → Bool
  | ugt | ule | sgt | sle => true
  | _ => false

/-- What the flags of a subtraction say of the predicate. -/
def reads : Predicate → Flags → Bool
  | eq, f => f.zero
  | ne, f => !f.zero
  | ugt, f => !f.borrow && !f.zero
  | uge, f => !f.borrow
  | ult, f => f.borrow
  | ule, f => f.borrow || f.zero
  | sgt, f => !f.zero && !f.less
  | sge, f => !f.less
  | slt, f => f.less
  | sle, f => f.zero || f.less

@[simp] theorem eval_swap (p : Predicate) (x y : BitVec w) : p.swap.eval y x = p.eval x y := by
  cases p
  case eq => exact BEq.comm
  case ne => exact bne_comm
  all_goals rfl

@[simp] theorem isSigned_swap (p : Predicate) : p.swap.isSigned = p.isSigned := by
  cases p <;> rfl

theorem mixed_swap_eq (p : Predicate) (hp : p.mixed = true) : p.swap.mixed = false := by
  cases p <;> first | rfl | cases hp

/-- **The flags of one subtraction give every predicate.** -/
theorem reads_sub (p : Predicate) (x y : BitVec w) (hw : 0 < w) : p.reads (sub x y false) = p.eval x y := by
  have hzero := zero_sub x y
  have hborrow := borrow_sub x y
  have hless := less_sub_false x y hw
  cases p <;> simp only [reads, eval, hzero, hborrow, hless]
  case eq => exact (beq_eq_decide x y).symm
  case ne => rw [bne, beq_eq_decide]
  case ugt =>
    rw [Bool.eq_iff_iff]
    simp only [BitVec.ult_eq_decide, BitVec.toNat_eq, Bool.and_eq_true, Bool.not_eq_true',
      decide_eq_false_iff_not, decide_eq_true_eq]
    omega
  case uge => simp [BitVec.ult_eq_decide, BitVec.ule_eq_decide, ← decide_not]
  case ule =>
    rw [Bool.eq_iff_iff]
    simp only [BitVec.ult_eq_decide, BitVec.ule_eq_decide, BitVec.toNat_eq, Bool.or_eq_true,
      decide_eq_true_eq]
    omega
  case sgt =>
    rw [Bool.eq_iff_iff]
    simp only [BitVec.slt_eq_decide, ← BitVec.toInt_inj, Bool.and_eq_true, Bool.not_eq_true',
      decide_eq_false_iff_not, decide_eq_true_eq]
    omega
  case sge => simp [BitVec.slt_eq_decide, BitVec.sle_eq_decide, ← decide_not]
  case sle =>
    rw [Bool.eq_iff_iff]
    simp only [BitVec.slt_eq_decide, BitVec.sle_eq_decide, ← BitVec.toInt_inj, Bool.or_eq_true,
      decide_eq_true_eq]
    omega

section
variable {n m : ℕ} (xh yh : BitVec n) (xl yl : BitVec m)

/-- The flags of a chain of two subtractions give the predicates that need no zero flag. -/
theorem reads_append (p : Predicate) (hn : 0 < n) (hp : p.mixed = false) (hp' : p ≠ eq ∧ p ≠ ne) :
    p.reads (sub xh yh (xl.ult yl)) = p.eval (xh ++ xl) (yh ++ yl) := by
  have hborrow := borrow_append xh yh xl yl
  have hless := less_append xh yh xl yl hn
  cases p
  case eq => exact absurd rfl hp'.1
  case ne => exact absurd rfl hp'.2
  case ult => exact hborrow
  case slt => exact hless
  case uge =>
    rw [reads, eval, hborrow]
    simp [BitVec.ult_eq_decide, BitVec.ule_eq_decide, ← decide_not]
  case sge =>
    rw [reads, eval, hless]
    simp [BitVec.slt_eq_decide, BitVec.sle_eq_decide, ← decide_not]
  all_goals cases hp

/-- The first operand is greater, but by less than the low word can count. -/
def CloseAbove (p : Predicate) (m : ℕ) (x y : BitVec w) : Prop :=
  (if p.isSigned then sgt else ugt).eval x y = true ∧ (x - y).toNat < 2 ^ m

/-- A mixed predicate is misread where the zero flag is set for a greater operand. -/
theorem reads_mixed_iff (p : Predicate) (hp : p.mixed = true) {x y : BitVec w} {f : Flags}
    (hborrow : f.borrow = x.ult y)
    (hless : f.less = x.slt y) (hself : x = y → f.zero = true) :
    p.reads f = p.eval x y ↔ ¬ ((if p.isSigned then sgt else ugt).eval x y = true ∧ f.zero = true) := by
  -- the three orders of the operands
  have hult := lt_trichotomy x.toNat y.toNat
  have hslt := lt_trichotomy x.toInt y.toInt
  rw [← BitVec.toNat_eq] at hult
  rw [BitVec.toInt_inj] at hslt
  rw [Bool.eq_iff_iff]
  cases p
  case ugt =>
    simp only [reads, eval, hborrow, isSigned, BitVec.ult_eq_decide, Bool.and_eq_true, Bool.not_eq_true',
      decide_eq_false_iff_not, decide_eq_true_eq, Bool.false_eq_true, if_false]
    grind
  case ule =>
    simp only [reads, eval, hborrow, isSigned, BitVec.ult_eq_decide, BitVec.ule_eq_decide, Bool.or_eq_true,
      decide_eq_true_eq, Bool.false_eq_true, if_false]
    grind
  case sgt =>
    simp only [reads, eval, hless, isSigned, BitVec.slt_eq_decide, Bool.and_eq_true, Bool.not_eq_true',
      decide_eq_false_iff_not, decide_eq_true_eq, if_true]
    grind
  case sle =>
    simp only [reads, eval, hless, isSigned, BitVec.slt_eq_decide, BitVec.sle_eq_decide, Bool.or_eq_true,
      decide_eq_true_eq, if_true]
    grind
  all_goals cases hp

/-- **The flags of a chain of two subtractions give a mixed predicate, but for operands
whose difference is one of low words.** -/
theorem reads_append_mixed (p : Predicate) (hn : 0 < n) (hp : p.mixed = true) :
    p.reads (sub xh yh (xl.ult yl)) = p.eval (xh ++ xl) (yh ++ yl) ↔
      ¬ p.CloseAbove m (xh ++ xl) (yh ++ yl) := by
  have hzero := zero_append xh yh xl yl
  have hself (h : xh ++ xl = yh ++ yl) : (sub xh yh (xl.ult yl)).zero = true := by
    rw [hzero, h, BitVec.sub_self]
    simp
  rw [reads_mixed_iff p hp (borrow_append xh yh xl yl) (less_append xh yh xl yl hn) hself, hzero,
    decide_eq_true_eq, CloseAbove]

end

/-- An extended value. -/
def widen (sign : Bool) (W : ℕ) (x : BitVec w) : BitVec W := if sign then x.signExtend W else x.setWidth W

theorem setWidth_signExtend (x : BitVec w) {V : ℕ} (h : W ≤ V) :
    (x.signExtend V).setWidth W = x.signExtend W := by
  ext i hi
  simp only [BitVec.getElem_setWidth, BitVec.getElem_signExtend, BitVec.getLsbD_signExtend,
    show i < V by omega, decide_true, Bool.true_and]
  split_ifs with hw
  · exact BitVec.getLsbD_eq_getElem hw
  · rfl

/-- **Extended values compare as the values.** -/
theorem eval_widen (p : Predicate) (x y : BitVec w) (hW : w ≤ W) :
    p.eval (widen p.isSigned W x) (widen p.isSigned W y) = p.eval x y := by
  have hz (a : BitVec w) : (a.setWidth W).toNat = a.toNat := by rw [BitVec.toNat_setWidth_of_le hW]
  have hs (a : BitVec w) : (a.signExtend W).toInt = a.toInt := BitVec.toInt_signExtend_of_le hW
  have hinj : x.setWidth W = y.setWidth W ↔ x = y := by rw [BitVec.toNat_eq, hz, hz, ← BitVec.toNat_eq]
  cases p
  case eq => simp only [eval, widen, isSigned, Bool.false_eq_true, if_false, beq_eq_decide, hinj]
  case ne => simp only [eval, widen, isSigned, Bool.false_eq_true, if_false, bne, beq_eq_decide, hinj]
  all_goals
    simp only [eval, widen, isSigned, Bool.false_eq_true, if_false, if_true, BitVec.ult_eq_decide,
      BitVec.ule_eq_decide,
      BitVec.slt_eq_decide, BitVec.sle_eq_decide, hz, hs]

end Predicate

/-! ### Registers and instructions -/

/-- A general purpose register. -/
abbrev Reg := ℕ

/-- The registers and the flags. -/
structure State where
  regs : Reg → BitVec 64
  flags : Flags

/-- Writes a register. -/
def State.set (s : State) (r : Reg) (v : BitVec 64) : State := { s with regs := Function.update s.regs r v }

@[simp] theorem State.set_self (s : State) (r : Reg) (v : BitVec 64) : (s.set r v).regs r = v := by simp [set]

@[simp] theorem State.set_flags (s : State) (r : Reg) (v : BitVec 64) : (s.set r v).flags = s.flags := rfl

theorem State.set_other (s : State) {r q : Reg} (v : BitVec 64) (h : q ≠ r) :
    (s.set r v).regs q = s.regs q := by simp [set, h]

/-- A value part: a constant with its size in bytes, or a register. A register that the
part owns may be overwritten. -/
inductive Part where
  | const (data : BitVec 64) (size : ℕ)
  | reg (r : Reg) (owned : Bool)
  deriving DecidableEq, Repr

namespace Part

def isConst : Part → Bool
  | const .. => true
  | reg .. => false

/-- The part owns its register. -/
def canSalvage : Part → Bool
  | const .. => false
  | reg _ owned => owned

/-- What the part holds. -/
def val (s : State) : Part → BitVec 64
  | const data _ => data
  | reg r _ => s.regs r

def regs : Part → Finset Reg
  | const .. => ∅
  | reg r _ => {r}

theorem val_congr {p : Part} {s t : State} (h : ∀ q ∈ p.regs, s.regs q = t.regs q) : p.val s = p.val t := by
  cases p with
  | const => rfl
  | reg r owned => exact h r (by simp [regs])

end Part

/-- `basic_ty_part_size` of an integer type. -/
def partSize (w : ℕ) : ℕ := if w ≤ 8 then 1 else if w ≤ 16 then 2 else if w ≤ 32 then 4 else 8

theorem le_partSize {w : ℕ} (hw : w ≤ 64) : w ≤ 8 * partSize w := by
  unfold partSize
  split_ifs <;> omega

/-- An operand of the comparison: a constant, or a value in one register, in two for 128
bits. Bits above the width are arbitrary. -/
inductive Operand (w : ℕ) where
  | const (v : BitVec w)
  | val (lo hi : Reg) (owned : Bool)
  deriving DecidableEq, Repr

namespace Operand

variable {w : ℕ}

def value (s : State) : Operand w → BitVec w
  | const v => v
  | val lo hi _ => (s.regs hi ++ s.regs lo).setWidth w

/-- The low part of the value. -/
def part0 : Operand w → Part
  | const v => .const (v.setWidth 64) (partSize w)
  | val lo _ owned => .reg lo owned

/-- The high part of a value of 128 bits. -/
def part1 : Operand w → Part
  | const v => .const ((v >>> 64).setWidth 64) (partSize w)
  | val _ hi owned => .reg hi owned

def regs (o : Operand w) : Finset Reg := o.part0.regs ∪ o.part1.regs

theorem part0_val (s : State) (o : Operand w) (hw : w ≤ 64) : (o.part0.val s).setWidth w = o.value s := by
  cases o with
  | const v => simp [part0, Part.val, value, hw]
  | val lo hi owned =>
    simp only [part0, Part.val, value]
    ext i hi'
    rw [BitVec.getElem_setWidth, BitVec.getElem_setWidth, BitVec.getLsbD_append, if_pos (by omega)]

theorem parts_val (s : State) (o : Operand 128) : o.part1.val s ++ o.part0.val s = o.value s := by
  cases o with
  | const v =>
    simp only [part0, part1, Part.val, value]
    ext i hi
    simp only [BitVec.getElem_append, BitVec.getElem_setWidth, BitVec.getLsbD_ushiftRight]
    split_ifs with h
    · exact BitVec.getLsbD_eq_getElem hi
    · rw [show 64 + (i - 64) = i by omega]
      exact BitVec.getLsbD_eq_getElem hi
  | val lo hi owned => simp [part0, part1, Part.val, value]

end Operand

/-- A register allocator: it never hands out a register that is in use. -/
structure Alloc where
  pick : Finset Reg → Reg
  fresh : ∀ used, pick used ∉ used

/-- What the target supplies. The last argument of an extension is a register it may use. -/
structure Derived (Inst : Type) where
  exec : Inst → State → State
  materializeConstant : BitVec 64 → ℕ → Reg → List Inst
  generateRawIntext : Reg → Reg → Bool → ℕ → ℕ → Reg → List Inst

/-- The registers in use and the code so far. -/
structure Ctx (Inst : Type) where
  used : Finset Reg
  code : List Inst

section
variable {Inst : Type}

/-- Runs instructions. -/
def run (exec : Inst → State → State) (code : List Inst) (s : State) : State :=
  code.foldl (fun s i => exec i s) s

@[simp] theorem run_nil (exec : Inst → State → State) (s : State) : run exec [] s = s := rfl

@[simp] theorem run_cons (exec : Inst → State → State) (i : Inst) (c : List Inst) (s : State) :
    run exec (i :: c) s = run exec c (exec i s) := rfl

@[simp] theorem run_append (exec : Inst → State → State) (c d : List Inst) (s : State) :
    run exec (c ++ d) s = run exec d (run exec c s) := by
  simp [run, List.foldl_append]

namespace Ctx

/-- Emits instructions. -/
def asm (c : Ctx Inst) (insts : List Inst) : Ctx Inst := { c with code := c.code ++ insts }

@[simp] theorem asm_code (c : Ctx Inst) (insts : List Inst) : (c.asm insts).code = c.code ++ insts := rfl

/-- Allocates a register. -/
def allocGp (c : Ctx Inst) (A : Alloc) : Reg × Ctx Inst :=
  (A.pick c.used, { c with used := insert (A.pick c.used) c.used })

/-- `load_to_reg`, or the register a part already has. -/
def loadToReg (D : Derived Inst) (A : Alloc) (c : Ctx Inst) : Part → Reg × Ctx Inst
  | .const data size =>
    let (r, c) := c.allocGp A
    (r, c.asm (D.materializeConstant data size r))
  | .reg r _ => (r, c)

/-- `into_extended`: constants are extended here, a register is reused when it is owned. -/
def intoExtended (D : Derived Inst) (A : Alloc) (c : Ctx Inst) (p : Part) (sign : Bool)
    (fromBits toBits : ℕ) : Part × Ctx Inst :=
  match p with
  | .const val _ =>
    let extended := if sign then (val.setWidth fromBits).signExtend 64
      else (val.setWidth fromBits).setWidth 64
    (.const extended ((toBits + 7) / 8), c)
  | .reg src owned =>
    let (dst, c) := if owned then (src, c) else c.allocGp A
    (.reg dst true, c.asm (D.generateRawIntext dst src sign fromBits toBits (A.pick c.used)))

/-- The operands of a comparison narrower than a machine word are extended. -/
def extendOps (D : Derived Inst) (A : Alloc) (c : Ctx Inst) (sign : Bool) (w : ℕ) (lhs rhs : Part) :
    Part × Part × Ctx Inst :=
  if w ≠ 32 ∧ w ≠ 64 then
    let extBits := (w + 31) / 32 * 32
    let (lhs, c) := c.intoExtended D A lhs sign w extBits
    let (rhs, c) := c.intoExtended D A rhs sign w extBits
    (lhs, rhs, c)
  else (lhs, rhs, c)

/-- A constant goes to the right. -/
def constRight {C : Type} (swapJump : C → C) (jump : C) (lhs rhs : Part) : C × Part × Part :=
  if lhs.isConst && !rhs.isConst then (swapJump jump, rhs, lhs) else (jump, lhs, rhs)

/-- Up to 64 bits, the operands get extended and the left one gets a register. -/
def prepare {C : Type} (D : Derived Inst) (A : Alloc) (swapJump : C → C) (jump : C) (sign : Bool)
    (w : ℕ) (lhs rhs : Part) (c : Ctx Inst) :
    C × Part × Reg × Part × Ctx Inst :=
  let (jump, lhs, rhs) := constRight swapJump jump lhs rhs
  let (lhs, rhs, c) := c.extendOps D A sign w lhs rhs
  let (l, c) := c.loadToReg D A lhs
  (jump, lhs, l, rhs, c)

end Ctx

/-! ### Operands in registers -/

/-- What the target's instruction sequences do. -/
structure Derived.Ok (D : Derived Inst) : Prop where
  materialize_self (data : BitVec 64) (size : ℕ) (r : Reg) (s : State) {w : ℕ} (hw : w ≤ 64)
    (hsize : w ≤ 8 * size) :
    ((run D.exec (D.materializeConstant data size r) s).regs r).setWidth w = data.setWidth w
  materialize_other (data : BitVec 64) (size : ℕ) {r q : Reg} (s : State) (hq : q ≠ r) :
    (run D.exec (D.materializeConstant data size r) s).regs q = s.regs q
  intext_self {dst src tmp : Reg} (sign : Bool) {w W : ℕ} (s : State) (hw : 0 < w) (hlt : w < W)
    (hW : W = 32 ∨ W = 64)
    (htmp : tmp ≠ dst) (htmp' : tmp ≠ src) :
    ((run D.exec (D.generateRawIntext dst src sign w W tmp) s).regs dst).setWidth W =
      Predicate.widen sign W ((s.regs src).setWidth w)
  intext_other {dst src tmp q : Reg} (sign : Bool) (w W : ℕ) (s : State) (hq : q ≠ dst) (hq' : q ≠ tmp) :
    (run D.exec (D.generateRawIntext dst src sign w W tmp) s).regs q = s.regs q

/-- A constant part has the bytes of a width. -/
def Part.Fits (w : ℕ) : Part → Prop
  | const _ size => w ≤ 8 * size
  | reg .. => True

/-- A part that owns its register does not share it. -/
def Part.Apart (p q : Part) : Prop := p.canSalvage = true → Disjoint p.regs q.regs

theorem Operand.part0_fits {w : ℕ} (o : Operand w) (hw : w ≤ 64) : o.part0.Fits w := by
  cases o with
  | const v => exact le_partSize hw
  | val => trivial

section
variable {D : Derived Inst} (hD : D.Ok) {A : Alloc} {c : Ctx Inst} {p : Part} {s : State}
include hD

/-- A part is in the register after `load_to_reg`, and the registers in use are kept. -/
theorem loadToReg_spec {w : ℕ} (hw : w ≤ 64) (hfits : p.Fits w) (hused : p.regs ⊆ c.used) :
    ((run D.exec (c.loadToReg D A p).2.code s).regs (c.loadToReg D A p).1).setWidth w =
        (p.val (run D.exec c.code s)).setWidth w ∧
      (∀ q ∈ c.used, (run D.exec (c.loadToReg D A p).2.code s).regs q = (run D.exec c.code s).regs q) ∧
      (c.loadToReg D A p).2.used = insert (c.loadToReg D A p).1 c.used ∧
      ((c.loadToReg D A p).1 ∈ c.used → (c.loadToReg D A p).1 ∈ p.regs) := by
  cases p with
  | const data size =>
    have hfresh := A.fresh c.used
    simp only [Ctx.loadToReg, Ctx.allocGp, Ctx.asm, run_append]
    refine ⟨hD.materialize_self data size _ _ hw hfits, fun q hq => ?_, trivial, fun h => absurd h hfresh⟩
    exact hD.materialize_other data size _ (ne_of_mem_of_not_mem hq hfresh)
  | reg r owned =>
    have hr : r ∈ c.used := hused (by simp [Part.regs])
    simp [Ctx.loadToReg, Part.val, Part.regs, hr]

/-- A part is extended after `into_extended`, and the registers in use are kept but for
the one it owns. -/
theorem intoExtended_spec (sign : Bool) {w W : ℕ} (hw : 0 < w) (hlt : w < W) (hW : W = 32 ∨ W = 64)
    (hused : p.regs ⊆ c.used) :
    ((c.intoExtended D A p sign w W).1.val (run D.exec (c.intoExtended D A p sign w W).2.code s)).setWidth W =
        Predicate.widen sign W ((p.val (run D.exec c.code s)).setWidth w) ∧
      (∀ q ∈ c.used, (p.canSalvage = true → q ∉ p.regs) →
        (run D.exec (c.intoExtended D A p sign w W).2.code s).regs q = (run D.exec c.code s).regs q) ∧
      c.used ⊆ (c.intoExtended D A p sign w W).2.used ∧
      (c.intoExtended D A p sign w W).1.regs ⊆ (c.intoExtended D A p sign w W).2.used ∧
      (c.intoExtended D A p sign w W).1.Fits W ∧
      (∀ q ∈ (c.intoExtended D A p sign w W).1.regs, q ∈ c.used → p.canSalvage = true ∧ q ∈ p.regs) := by
  cases p with
  | const val size =>
    refine ⟨?_, fun _ _ _ => rfl, subset_rfl, by simp [Ctx.intoExtended, Part.regs],
      ?_, by simp [Ctx.intoExtended, Part.regs]⟩
    · have hW' : W ≤ 64 := by omega
      simp only [Ctx.intoExtended, Part.val, Predicate.widen]
      split_ifs
      · exact Predicate.setWidth_signExtend _ hW'
      · exact BitVec.setWidth_setWidth_of_le _ hW'
    · simp only [Ctx.intoExtended, Part.Fits]
      omega
  | reg src owned =>
    have hsrc : src ∈ c.used := hused (by simp [Part.regs])
    cases owned with
    | true =>
      have hfresh := A.fresh c.used
      have htmp : A.pick c.used ≠ src := (ne_of_mem_of_not_mem hsrc hfresh).symm
      simp only [Ctx.intoExtended, Ctx.asm, run_append, Part.val, if_true]
      refine ⟨hD.intext_self sign _ hw hlt hW htmp htmp, fun q hq hne => ?_,
        subset_rfl, by simp [Part.regs, hsrc], trivial,
        fun q hq _ => ⟨rfl, hq⟩⟩
      exact hD.intext_other sign w W _ (by simpa [Part.regs] using hne rfl) (ne_of_mem_of_not_mem hq hfresh)
    | false =>
      have hdst := A.fresh c.used
      have hfresh := A.fresh (insert (A.pick c.used) c.used)
      have htmp {q : Reg} (hq : q ∈ insert (A.pick c.used) c.used) :
        A.pick (insert (A.pick c.used) c.used) ≠ q :=
        (ne_of_mem_of_not_mem hq hfresh).symm
      simp only [Ctx.intoExtended, Ctx.allocGp, Ctx.asm, run_append, Part.val, Bool.false_eq_true, if_false]
      refine ⟨hD.intext_self sign _ hw hlt hW (htmp (by simp)) (htmp (by simp [hsrc])),
        fun q hq hne => ?_, by simp,
        by simp [Part.regs], trivial, fun q hq hmem => ?_⟩
      · exact hD.intext_other sign w W _ (ne_of_mem_of_not_mem hq hdst) (htmp (by simp [hq])).symm
      · simp only [Part.regs, Finset.mem_singleton] at hq
        exact absurd (hq ▸ hmem) hdst

/-- The width of the machine comparison. -/
def machineWidth (w : ℕ) : ℕ := if w ≤ 32 then 32 else 64

/-- The operands of a comparison as machine words. -/
structure Ready (c : Ctx Inst) (s : State) (lhs rhs : Part) {W : ℕ} (x y : BitVec W) : Prop where
  lhs_val : (lhs.val s).setWidth W = x
  rhs_val : (rhs.val s).setWidth W = y
  lhs_used : lhs.regs ⊆ c.used
  rhs_used : rhs.regs ⊆ c.used
  lhs_fits : lhs.Fits W
  rhs_fits : rhs.Fits W

omit hD in
/-- The operands before anything is emitted. -/
theorem Ready.ofOperands {w : ℕ} (lhs rhs : Operand w) (hw : w ≤ 64) {used : Finset Reg}
    (hused : lhs.regs ∪ rhs.regs ⊆ used) :
    Ready (⟨used, []⟩ : Ctx Inst) s lhs.part0 rhs.part0 (lhs.value s) (rhs.value s) where
  lhs_val := lhs.part0_val s hw
  rhs_val := rhs.part0_val s hw
  lhs_used := (Finset.subset_union_left.trans Finset.subset_union_left).trans hused
  rhs_used := (Finset.subset_union_left.trans Finset.subset_union_right).trans hused
  lhs_fits := lhs.part0_fits hw
  rhs_fits := rhs.part0_fits hw

/-- **The operands are extended to machine words.** -/
theorem extendOps_spec {lhs rhs : Part} (sign : Bool) {w : ℕ} {x y : BitVec w} (hw : 0 < w ∧ w ≤ 64)
    (h : Ready c (run D.exec c.code s) lhs rhs x y) (hl : lhs.Apart rhs) :
    Ready (c.extendOps D A sign w lhs rhs).2.2 (run D.exec (c.extendOps D A sign w lhs rhs).2.2.code s)
      (c.extendOps D A sign w lhs rhs).1 (c.extendOps D A sign w lhs rhs).2.1
      (Predicate.widen sign (machineWidth w) x) (Predicate.widen sign (machineWidth w) y) ∧
    c.used ⊆ (c.extendOps D A sign w lhs rhs).2.2.used ∧
    ∀ q ∈ (c.extendOps D A sign w lhs rhs).1.regs, q ∈ c.used → q ∈ lhs.regs := by
  by_cases h32 : w = 32
  · subst h32
    exact ⟨by simpa [Ctx.extendOps, machineWidth, Predicate.widen] using h, by simp [Ctx.extendOps],
      fun _ hq _ => by simpa [Ctx.extendOps] using hq⟩
  by_cases h64 : w = 64
  · subst h64
    exact ⟨by simpa [Ctx.extendOps, machineWidth, Predicate.widen] using h, by simp [Ctx.extendOps],
      fun _ hq _ => by simpa [Ctx.extendOps] using hq⟩
  have hext : (w + 31) / 32 * 32 = machineWidth w := by
    unfold machineWidth
    split_ifs <;> omega
  have hlt : w < machineWidth w := by omega
  have hW : machineWidth w = 32 ∨ machineWidth w = 64 := by
    unfold machineWidth
    split_ifs <;> simp
  simp only [Ctx.extendOps, h32, h64, ne_eq, not_false_eq_true, and_self, if_true, hext]
  obtain ⟨hval₁, hkeep₁, hsub₁, hused₁, hfits₁, hregs₁⟩ :=
    intoExtended_spec hD (A := A) sign hw.1 hlt hW h.lhs_used (s := s)
  set p₁ := (c.intoExtended D A lhs sign w (machineWidth w)).1
  set c₁ := (c.intoExtended D A lhs sign w (machineWidth w)).2
  obtain ⟨hval₂, hkeep₂, hsub₂, hused₂, hfits₂, -⟩ :=
    intoExtended_spec hD (A := A) sign hw.1 hlt hW (h.rhs_used.trans hsub₁) (s := s)
  -- extending one operand keeps the other
  have hrhs : rhs.val (run D.exec c₁.code s) = rhs.val (run D.exec c.code s) :=
    Part.val_congr fun q hq => hkeep₁ q (h.rhs_used hq) fun hsalvage =>
      Finset.disjoint_right.mp (hl hsalvage) hq
  have hlhs : p₁.val (run D.exec (c₁.intoExtended D A rhs sign w (machineWidth w)).2.code s) =
    p₁.val (run D.exec c₁.code s) :=
    Part.val_congr fun q hq => hkeep₂ q (hused₁ hq) fun hsalvage hmem => by
      obtain ⟨hsalvage', hmem'⟩ := hregs₁ q hq (h.rhs_used hmem)
      exact Finset.disjoint_right.mp (hl hsalvage') hmem hmem'
  exact ⟨⟨by rw [hlhs, hval₁, h.lhs_val], by rw [hval₂, hrhs, h.rhs_val], hused₁.trans hsub₂, hused₂,
    hfits₁, hfits₂⟩,
    hsub₁.trans hsub₂, fun q hq hmem => (hregs₁ q hq hmem).2⟩

/-- **Up to 64 bits, a register and a part hold machine words that compare as the
operands.** -/
theorem prepare_spec {C : Type} {ofPredicate : Predicate → C} {swapJump : C → C}
    (hswap : ∀ q, swapJump (ofPredicate q) = ofPredicate q.swap) (q : Predicate) {lhs rhs : Part}
    {w : ℕ} {x y : BitVec w}
    (hw : 0 < w ∧ w ≤ 64) (h : Ready c (run D.exec c.code s) lhs rhs x y) (hl : lhs.Apart rhs)
    (hr : rhs.Apart lhs) :
    let (jump, _, l, rhs', c') := c.prepare D A swapJump (ofPredicate q) q.isSigned w lhs rhs
    let s' := run D.exec c'.code s
    ∃ (q' : Predicate) (x' y' : BitVec (machineWidth w)), jump = ofPredicate q' ∧ q'.eval x' y' = q.eval x y ∧
      (s'.regs l).setWidth (machineWidth w) = x' ∧ (rhs'.val s').setWidth (machineWidth w) = y' ∧
      l ∈ c'.used ∧ rhs'.regs ⊆ c'.used ∧ rhs'.Fits (machineWidth w) ∧
        (l ∈ c.used → l ∈ lhs.regs ∪ rhs.regs) := by
  have hle : w ≤ machineWidth w := by
    unfold machineWidth
    split_ifs <;> omega
  have hle' : machineWidth w ≤ 64 := by
    unfold machineWidth
    split_ifs <;> omega
  obtain ⟨q', l₀, r₀, x₀, y₀, hright, heval, hready, hapart, hsign, hregs⟩ :
      ∃ (q' : Predicate) (l₀ r₀ : Part) (x₀ y₀ : BitVec w),
        Ctx.constRight swapJump (ofPredicate q) lhs rhs = (ofPredicate q', l₀, r₀) ∧
        q'.eval x₀ y₀ = q.eval x y ∧ Ready c (run D.exec c.code s) l₀ r₀ x₀ y₀ ∧ l₀.Apart r₀ ∧
          q'.isSigned = q.isSigned ∧
        l₀.regs ⊆ lhs.regs ∪ rhs.regs := by
    unfold Ctx.constRight
    split_ifs
    · exact ⟨q.swap, rhs, lhs, y, x, by rw [hswap], q.eval_swap x y,
        ⟨h.rhs_val, h.lhs_val, h.rhs_used, h.lhs_used, h.rhs_fits, h.lhs_fits⟩, hr, q.isSigned_swap,
        Finset.subset_union_right⟩
    · exact ⟨q, lhs, rhs, x, y, rfl, rfl, h, hl, rfl, Finset.subset_union_left⟩
  obtain ⟨hext, hsub, hold⟩ := extendOps_spec hD (A := A) q.isSigned hw hready hapart
  simp only [Ctx.prepare, hright]
  set ext := c.extendOps D A q.isSigned w l₀ r₀
  obtain ⟨hval, hkeep, hused, hload⟩ := loadToReg_spec hD (A := A) hle' hext.lhs_fits hext.lhs_used (s := s)
  refine ⟨q', Predicate.widen q.isSigned _ x₀, Predicate.widen q.isSigned _ y₀, rfl, ?_,
    hval.trans hext.lhs_val, ?_, by simp [hused], ?_,
    hext.rhs_fits, fun hmem => hregs (hold _ (hload (hsub hmem)) hmem)⟩
  · exact (hsign ▸ Predicate.eval_widen q' x₀ y₀ hle).trans heval
  · rw [Part.val_congr fun r hr => hkeep r (hext.rhs_used hr), hext.rhs_val]
  · exact hext.rhs_used.trans (by simp [hused])

end

/-! ### Operands of two words -/

theorem append_inj {n m : ℕ} {xh yh : BitVec n} {xl yl : BitVec m} : xh ++ xl = yh ++ yl ↔
    xh = yh ∧ xl = yl := by
  constructor
  · intro h
    constructor
    · simpa only [BitVec.extractLsb'_append_eq_left] using congrArg (BitVec.extractLsb' m n) h
    · simpa only [BitVec.setWidth_append_eq_right] using congrArg (BitVec.setWidth m) h
  · rintro ⟨rfl, rfl⟩
    rfl

/-- Code keeps the registers in use. -/
def Keeps (exec : Inst → State → State) (s : State) (c c' : Ctx Inst) : Prop :=
  c.used ⊆ c'.used ∧ ∀ q ∈ c.used, (run exec c'.code s).regs q = (run exec c.code s).regs q

/-- A part holds a word. -/
def Holds (exec : Inst → State → State) (s : State) (c : Ctx Inst) (p : Part) (v : BitVec 64) : Prop :=
  p.regs ⊆ c.used ∧ p.val (run exec c.code s) = v

section
variable {exec : Inst → State → State} {s : State} {c c' c'' : Ctx Inst} {p : Part} {v : BitVec 64}

theorem Keeps.trans (h : Keeps exec s c c') (h' : Keeps exec s c' c'') : Keeps exec s c c'' :=
  ⟨h.1.trans h'.1, fun q hq => (h'.2 q (h.1 hq)).trans (h.2 q hq)⟩

theorem Holds.keep (h : Holds exec s c p v) (hk : Keeps exec s c c') : Holds exec s c' p v :=
  ⟨h.1.trans hk.1, (Part.val_congr fun q hq => hk.2 q (h.1 hq)).trans h.2⟩

theorem Holds.reg_mem {r : Reg} {owned : Bool} (h : Holds exec s c (.reg r owned) v) : r ∈ c.used :=
  h.1 (by simp [Part.regs])

end

/-- A word is loaded. -/
theorem loadToReg_word {D : Derived Inst} (hD : D.Ok) (A : Alloc) {s : State} {c : Ctx Inst} {p : Part}
    {v : BitVec 64}
    (h : Holds D.exec s c p v) (hfits : p.Fits 64) :
    Keeps D.exec s c (c.loadToReg D A p).2 ∧
      Holds D.exec s (c.loadToReg D A p).2 (.reg (c.loadToReg D A p).1 false) v := by
  obtain ⟨hval, hkeep, hused, -⟩ := loadToReg_spec hD (A := A) le_rfl hfits h.1 (s := s)
  rw [BitVec.setWidth_eq, BitVec.setWidth_eq, h.2] at hval
  exact ⟨⟨by simp [hused], hkeep⟩, by simp [Part.regs, hused], hval⟩

/-- The two words of an operand. -/
theorem operand_holds {D : Derived Inst} {s : State} (o : Operand 128) (used : Finset Reg)
    (h : o.regs ⊆ used) :
    ∃ lo hi, hi ++ lo = o.value s ∧ Holds D.exec s (⟨used, []⟩ : Ctx Inst) o.part0 lo ∧
      Holds D.exec s (⟨used, []⟩ : Ctx Inst) o.part1 hi ∧
      o.part0.Fits 64 ∧ o.part1.Fits 64 := by
  refine ⟨o.part0.val s, o.part1.val s, o.parts_val s, ⟨?_, rfl⟩, ⟨?_, rfl⟩, ?_⟩
  · exact Finset.union_subset_left h
  · exact Finset.union_subset_right h
  · cases o <;> simp [Operand.part0, Operand.part1, Part.Fits, partSize]

end

/-! ### Conditional branches -/

/-- Where a jump goes: to a block, or past the moves into one. -/
inductive Label (B : Type) where
  | block (b : B)
  | tmp
  deriving DecidableEq, Repr

/-- A piece of branch code. A jump without a condition is `Jump::jmp`. -/
inductive Branch (J B : Type) where
  | phiMoves (target : B)
  | jump (jmp : Option J) (label : Label B)
  | placeTmp
  deriving DecidableEq, Repr

/-- The blocks around a branch: the one that follows in the code, and the moves to the
phis of a block, which may change registers and flags. -/
structure Blocks (B : Type) where
  next : Option B
  hasPhis : B → Bool
  phiMoves : B → State → State
  phiMoves_eq : ∀ b s, hasPhis b = false → phiMoves b s = s

/-- The conditions of a target's jumps. -/
structure Jumps (J : Type) where
  invert : J → J
  holds : J → State → Bool
  holds_invert : ∀ j s, holds (invert j) s = !holds j s

section
variable {J B : Type} [DecidableEq B] (jumps : Jumps J) (blocks : Blocks B)

/-- The code of a jump to a block. -/
def generateBranchToBlock (jmp : Option J) (target : B) (needsSplit lastInst : Bool) : List (Branch J B) :=
  if !needsSplit || jmp.isNone then
    .phiMoves target :: if !lastInst || some target ≠ blocks.next then [.jump jmp (.block target)] else []
  else [.jump (jmp.map jumps.invert) .tmp, .phiMoves target, .jump none (.block target), .placeTmp]

/-- The code of a conditional branch. -/
def generateConditionalBranch (jmp : J) (trueTarget falseTarget : B) : List (Branch J B) :=
  let trueNeedsSplit := blocks.hasPhis trueTarget
  let falseNeedsSplit := blocks.hasPhis falseTarget
  if blocks.next = some trueTarget ∨ (blocks.next ≠ some falseTarget ∧ trueNeedsSplit) then
    generateBranchToBlock jumps blocks (some (jumps.invert jmp)) falseTarget falseNeedsSplit false ++
      generateBranchToBlock jumps blocks none trueTarget false true
  else if blocks.next = some falseTarget then
    generateBranchToBlock jumps blocks (some jmp) trueTarget trueNeedsSplit false ++
      generateBranchToBlock jumps blocks none falseTarget false true
  else
    generateBranchToBlock jumps blocks (some jmp) trueTarget false false ++
      generateBranchToBlock jumps blocks none falseTarget false true

/-- Runs branch code to the block it reaches. After a jump to the temporary label, code is
skipped up to it. -/
def runBranch : (skip : Bool) → List (Branch J B) → State → Option (B × State)
  | _, [], s => blocks.next.map (·, s)
  | _, .placeTmp :: code, s => runBranch false code s
  | true, _ :: code, s => runBranch true code s
  | false, .phiMoves b :: code, s => runBranch false code (blocks.phiMoves b s)
  | false, .jump jmp label :: code, s =>
    if jmp.all (jumps.holds · s) then
      match label with
      | .block b => some (b, s)
      | .tmp => runBranch true code s
    else runBranch false code s

variable {jumps blocks}

/-- A jump that holds reaches its block with the moves done; one that does not goes on. -/
theorem runBranch_branchToBlock (j : J) (target : B) {split : Bool}
    (hsplit : split = false → blocks.hasPhis target = false)
    (code : List (Branch J B)) (s : State) :
    runBranch jumps blocks false (generateBranchToBlock jumps blocks (some j) target split false ++ code) s =
      if jumps.holds j s then some (target, blocks.phiMoves target s)
        else runBranch jumps blocks false code s := by
  cases split with
  | false =>
    have hmoves := blocks.phiMoves_eq target s (hsplit rfl)
    simp [generateBranchToBlock, runBranch, hmoves]
  | true => cases hj : jumps.holds j s <;> simp [generateBranchToBlock, runBranch, jumps.holds_invert, hj]

/-- The last jump reaches its block, also by falling through to it. -/
theorem runBranch_last (target : B) (s : State) :
    runBranch jumps blocks false (generateBranchToBlock jumps blocks none target false true) s =
      some (target, blocks.phiMoves target s) := by
  by_cases hnext : some target = blocks.next
  · simp [generateBranchToBlock, runBranch, ← hnext]
  · simp [generateBranchToBlock, runBranch, hnext]

/-- **A conditional branch reaches the block its condition selects, with the moves to that
block's phis done.** -/
theorem runBranch_conditional (j : J) (t f : B) (s : State) :
    runBranch jumps blocks false (generateConditionalBranch jumps blocks j t f) s =
      some (if jumps.holds j s then (t, blocks.phiMoves t s) else (f, blocks.phiMoves f s)) := by
  simp only [generateConditionalBranch]
  by_cases hfirst : blocks.next = some t ∨ (blocks.next ≠ some f ∧ blocks.hasPhis t = true)
  · rw [if_pos hfirst, runBranch_branchToBlock _ _ id, runBranch_last, jumps.holds_invert]
    cases jumps.holds j s <;> rfl
  rw [if_neg hfirst]
  by_cases hsecond : blocks.next = some f
  · rw [if_pos hsecond, runBranch_branchToBlock _ _ id, runBranch_last]
    cases jumps.holds j s <;> rfl
  · have hphis : blocks.hasPhis t = false := by simpa using fun h => hfirst (.inr ⟨hsecond, h⟩)
    rw [if_neg hsecond, runBranch_branchToBlock _ _ fun _ => hphis, runBranch_last]
    cases jumps.holds j s <;> rfl

end

/-! ### The comparison and what is made of it -/

/-- The instruction after the comparison, where it uses the comparison. -/
inductive Next (B : Type) where
  | condBr (t f : B)
  | ext (signed : Bool) (bits : ℕ)
  | other
  deriving DecidableEq, Repr

/-- A comparison of integers of up to 64 bits or of 128, or of pointers, which have 64.
An operand that owns its register does not share it. -/
structure Cmp (B : Type) where
  pred : Predicate
  width : ℕ
  width_ok : (0 < width ∧ width ≤ 64) ∨ width = 128
  lhs : Operand width
  rhs : Operand width
  lhs_apart : lhs.part0.Apart rhs.part0
  rhs_apart : rhs.part0.Apart lhs.part0
  singleUse : Bool
  next : Next B

namespace Cmp

variable {B : Type} (cmp : Cmp B)

/-- The registers of the operands. -/
def regs : Finset Reg := cmp.lhs.regs ∪ cmp.rhs.regs

/-- The comparison of the two values. -/
def result (s : State) : Bool := cmp.pred.eval (cmp.lhs.value s) (cmp.rhs.value s)

/-- The conditional branch the comparison is fused with. -/
def fuseBr : Option (B × B) :=
  match cmp.next with
  | .condBr t f => some (t, f)
  | _ => none

/-- The extension the comparison is fused with. -/
def fuseExt : Option Bool :=
  match cmp.next with
  | .ext signed bits => if cmp.singleUse && bits ≤ 64 then some signed else none
  | _ => none

end Cmp

/-- The code of a comparison: its instructions, the register of the result (of the
extension, where it is fused) and the branch. -/
structure Compiled (Inst J B : Type) where
  insts : List Inst
  result : Option Reg
  branch : Option (List (Branch J B))

section
variable {Inst J B : Type} [DecidableEq B]

/-- A register holds the result as an `i1`, with arbitrary bits above it. -/
def IsBit (s : State) (r : Reg) (b : Bool) : Prop := (s.regs r).getLsbD 0 = b

/-- **The code does what the comparison says**: a fused branch reaches the right block and
has its moves done, a fused extension and an `i1` result have the right value. -/
def Compiled.Correct (exec : Inst → State → State) (jumps : Jumps J) (blocks : Blocks B) (cmp : Cmp B)
    (s : State)
    (code : Compiled Inst J B) : Prop :=
  let s' := run exec code.insts s
  let b := cmp.result s
  match cmp.fuseBr, cmp.fuseExt with
  | some (t, f), _ =>
    (∃ br, code.branch = some br ∧ runBranch jumps blocks false br s' =
      some (if b then (t, blocks.phiMoves t s') else (f, blocks.phiMoves f s'))) ∧
      (cmp.singleUse = false → ∃ r, code.result = some r ∧ IsBit s' r b)
  | none, some signed => ∃ r, code.result = some r ∧
      ∀ bits ≤ 64, (s'.regs r).setWidth bits = if signed then (BitVec.ofBool b).signExtend bits
        else (BitVec.ofBool b).setWidth bits
  | none, none => ∃ r, code.result = some r ∧ IsBit s' r b

/-- What reads the flags: the jump of a condition, and the instructions that write its
result to a register as an `i1`, zero extended, and sign extended. -/
structure Users (Inst C J : Type) where
  jump : C → J
  set : C → Reg → List Inst
  setExt : C → Reg → List Inst
  mask : C → Reg → List Inst

/-- The last part of the lowering, for the flags that the code sets. -/
def finish {C : Type} (jumps : Jumps J) (users : Users Inst C J) (blocks : Blocks B) (cmp : Cmp B)
    (dst : Reg) (code : List Inst)
    (cond : C) : Compiled Inst J B :=
  match cmp.fuseBr, cmp.fuseExt with
  | some (t, f), _ =>
    let branch := some (generateConditionalBranch jumps blocks (users.jump cond) t f)
    if cmp.singleUse then ⟨code, none, branch⟩ else ⟨code ++ users.set cond dst, some dst, branch⟩
  | none, some signed =>
    ⟨code ++ if signed then users.mask cond dst else users.setExt cond dst, some dst, none⟩
  | none, none => ⟨code ++ users.set cond dst, some dst, none⟩

/-- The readers of the flags do what their conditions say. -/
structure Users.Ok {C : Type} (exec : Inst → State → State) (jumps : Jumps J) (users : Users Inst C J) :
    Prop where
  set_self (c : C) (r : Reg) (s : State) : IsBit (run exec (users.set c r) s) r (jumps.holds (users.jump c) s)
  set_jump (c : C) (r : Reg) (s : State) :
    jumps.holds (users.jump c) (run exec (users.set c r) s) = jumps.holds (users.jump c) s
  setExt_self (c : C) (r : Reg) (s : State) :
    (run exec (users.setExt c r) s).regs r = (BitVec.ofBool (jumps.holds (users.jump c) s)).setWidth 64
  mask_self (c : C) (r : Reg) (s : State) :
    (run exec (users.mask c r) s).regs r = (BitVec.ofBool (jumps.holds (users.jump c) s)).signExtend 64

/-- Both targets of the branch are one block, and nothing else reads the comparison. -/
def Cmp.Idle (cmp : Cmp B) : Prop := cmp.singleUse = true ∧ ∃ t, cmp.fuseBr = some (t, t)

theorem target_eq_iff (blocks : Blocks B) (h b : Bool) (t f : B) (s : State) :
    (if h = true then (t, blocks.phiMoves t s) else (f, blocks.phiMoves f s)) =
      (if b = true then (t, blocks.phiMoves t s) else (f, blocks.phiMoves f s)) ↔ h = b ∨ t = f := by
  by_cases htf : t = f
  · simp [htf]
  · cases h <;> cases b <;> simp [htf, Ne.symm htf]

/-- **The lowering is correct exactly if the condition reads the comparison from the
flags**, unless nothing depends on it. -/
theorem finish_correct_iff {C : Type} {exec : Inst → State → State} {jumps : Jumps J} {users : Users Inst C J}
    (hu : users.Ok exec jumps) (blocks : Blocks B) (cmp : Cmp B) (s : State) (dst : Reg)
    (code : List Inst) (c : C) :
    (finish jumps users blocks cmp dst code c).Correct exec jumps blocks cmp s ↔
      jumps.holds (users.jump c) (run exec code s) = cmp.result s ∨ cmp.Idle := by
  have hset := hu.set_self c dst (run exec code s)
  cases hbr : cmp.fuseBr with
  | some targets =>
    obtain ⟨t, f⟩ := targets
    cases huse : cmp.singleUse with
    | true =>
      simp only [Compiled.Correct, finish, Cmp.Idle, hbr, huse, if_true, Option.some.injEq,
        exists_eq_left', runBranch_conditional,
        target_eq_iff, Prod.mk.injEq, true_and, Bool.true_eq_false, false_imp_iff, and_true]
      exact or_congr_right eq_comm
    | false =>
      have hcond := hu.set_jump c dst (run exec code s)
      simp only [Compiled.Correct, finish, Cmp.Idle, hbr, huse, Bool.false_eq_true, if_false,
        Option.some.injEq, exists_eq_left',
        runBranch_conditional, target_eq_iff, run_append, IsBit, hcond, false_and, or_false,
          true_imp_iff] at hset ⊢
      rw [hset]
      exact ⟨fun h => h.2, fun h => ⟨.inl h, h⟩⟩
  | none =>
    have hidle : ¬ cmp.Idle := by simp [Cmp.Idle, hbr]
    cases hext : cmp.fuseExt with
    | some signed =>
      cases signed with
      | true =>
        simp only [Compiled.Correct, finish, hbr, hext, hidle, or_false, run_append, if_true,
          Option.some.injEq, exists_eq_left',
          hu.mask_self]
        refine ⟨fun h => ?_, fun h bits hbits => ?_⟩
        · have h1 := h 1 (by omega)
          rw [Predicate.setWidth_signExtend _ (by omega), BitVec.signExtend_eq, BitVec.signExtend_eq] at h1
          exact BitVec.ofBool_eq_iff_eq.mp h1
        · rw [h, Predicate.setWidth_signExtend _ hbits]
      | false =>
        simp only [Compiled.Correct, finish, hbr, hext, hidle, or_false, run_append, Bool.false_eq_true,
          if_false, Option.some.injEq,
          exists_eq_left', hu.setExt_self]
        refine ⟨fun h => ?_, fun h bits hbits => ?_⟩
        · have h1 := h 1 (by omega)
          rw [BitVec.setWidth_setWidth_of_le _ (by omega), BitVec.setWidth_eq, BitVec.setWidth_eq] at h1
          exact BitVec.ofBool_eq_iff_eq.mp h1
        · rw [h, BitVec.setWidth_setWidth_of_le _ hbits]
    | none =>
      simp only [Compiled.Correct, finish, hbr, hext, hidle, or_false, run_append, IsBit,
        Option.some.injEq, exists_eq_left'] at hset ⊢
      rw [hset]

end

end Tpde.Icmp
