import Tpde.Library.Alignment

/-!
# Dynamic stack allocation

`alloca_fixed` and `alloca_dynamic` of both targets, and the code that they emit. The stack pointer is
masked to the alignment only if the size of an element is not a multiple of it: with an alignment above
16 and a stack pointer that is not aligned so, the result is not either (`x64_dynamic_iff`,
`a64_dynamic_iff`). On A64 an allocation of no bytes returns an aligned pointer but leaves the stack
pointer (`a64_fixed_iff`), and elements of size zero set it to zero (`a64_dynamic_zero`).
-/

namespace Tpde.Target.Alloca

open Alignment

/-- The registers and what they hold. -/
abbrev State := ℕ → BitVec 64

/-- Runs code. -/
def run {ι : Type*} (exec : ι → State → State) (code : List ι) (s : State) : State :=
  code.foldl (fun s i => exec i s) s

/-- The registers of a count and of a result, which may be the same one; neither is reserved. -/
structure AllocaRegs (reserved : List ℕ) where
  sizeReg : ℕ
  resReg : ℕ
  size_notMem : sizeReg ∉ reserved
  res_notMem : resReg ∉ reserved

/-- The assertion on an alignment. -/
def ValidAlign (align : BitVec 32) : Prop := align ≠ 0 ∧ align &&& (align - 1) = 0

instance (align : BitVec 32) : Decidable (ValidAlign align) := inferInstanceAs (Decidable (_ ∧ _))

/-- `util::align_up(size, 16)`. -/
def alignUp16 (size : BitVec 64) : BitVec 64 := (size + (16 - 1)) &&& ~~~(16 - 1)

/-- `align > 16 ? align : 16`. -/
def stackAlign (align : BitVec 32) : BitVec 32 := if 16 < align then align else 16

/-! ### x64 -/

namespace X64

/-- `FE_SP`. -/
def sp : ℕ := 4

/-- The instructions; the immediates of 32 bits are sign extended. -/
inductive Inst where
  | sub64ri (dst : ℕ) (imm : BitVec 32)
  | and64ri (dst : ℕ) (imm : BitVec 32)
  | mov64rr (dst src : ℕ)
  | mov64ri (dst : ℕ) (imm : BitVec 64)
  | xor32rr (dst src : ℕ)
  | lea64rm (dst : ℕ) (scale : ℕ) (index : ℕ)
  | shl64ri (dst : ℕ) (imm : ℕ)
  | imul64rri (dst src : ℕ) (imm : BitVec 32)
  | imul64rr (dst src : ℕ)
  | sub64rr (dst src : ℕ)
  deriving DecidableEq

def Inst.exec (i : Inst) (s : State) : State :=
  match i with
  | sub64ri dst imm => Function.update s dst (s dst - imm.signExtend 64)
  | and64ri dst imm => Function.update s dst (s dst &&& imm.signExtend 64)
  | mov64rr dst src => Function.update s dst (s src)
  | mov64ri dst imm => Function.update s dst imm
  | xor32rr dst src => Function.update s dst (((s dst).setWidth 32 ^^^ (s src).setWidth 32).setWidth 64)
  | lea64rm dst scale index => Function.update s dst (s index * BitVec.ofNat 64 scale)
  | shl64ri dst imm => Function.update s dst (s dst <<< imm)
  | imul64rri dst src imm => Function.update s dst (s src * imm.signExtend 64)
  | imul64rr dst src => Function.update s dst (s dst * s src)
  | sub64rr dst src => Function.update s dst (s dst - s src)

/-- `alloca_fixed`. -/
def allocaFixed (size : BitVec 64) (align : BitVec 32) (resReg : ℕ) : Option (List Inst) :=
  let size := alignUp16 size
  if ¬ ValidAlign align ∨ ¬ size < 0x80000000 ∨ (16 < align ∧ ¬ align < (1 : BitVec 32) <<< 31) then none
  else
    some ((if 0 < size then [.sub64ri sp (size.setWidth 32)] else []) ++
      (if 16 < align then [.and64ri sp (~~~(align - 1))] else []) ++ [.mov64rr resReg sp])

/-- A scratch register besides. -/
structure Regs extends AllocaRegs [sp] where
  tmp : ℕ
  tmp_notMem : tmp ∉ [sp, sizeReg, resReg]

/-- The product of `alloca_dynamic`. -/
def product (elemSize : BitVec 64) (r : Regs) : List Inst :=
  if elemSize = 0 then [.xor32rr r.resReg r.resReg]
  else if elemSize &&& (elemSize - 1) = 0 then
    let shift := elemSize.ctz.toNat
    if 0 < shift ∧ shift < 4 then [.lea64rm r.resReg (1 <<< shift) r.sizeReg]
    else (if r.sizeReg ≠ r.resReg then [.mov64rr r.resReg r.sizeReg] else []) ++ if elemSize ≠ 1 then
      [.shl64ri r.resReg shift] else []
  else if elemSize ≤ 0x7fffffff then [.imul64rri r.resReg r.sizeReg (elemSize.setWidth 32)]
  else .mov64ri r.tmp elemSize ::
    ((if r.sizeReg ≠ r.resReg then [.mov64rr r.resReg r.sizeReg] else []) ++ [.imul64rr r.resReg r.tmp])

/-- `alloca_dynamic`. -/
def allocaDynamic (elemSize : BitVec 64) (align : BitVec 32) (r : Regs) : Option (List Inst) :=
  let mask := (stackAlign align - 1).setWidth 64
  if ¬ ValidAlign align ∨ (elemSize &&& mask ≠ 0 ∧ ¬ stackAlign align < (1 : BitVec 32) <<< 31) then none
  else
    some (product elemSize r ++ [.sub64rr sp r.resReg] ++
      (if elemSize &&& mask ≠ 0 then [.and64ri sp (~~~(stackAlign align - 1))] else []) ++
        [.mov64rr r.resReg sp])

end X64

/-! ### A64 -/

namespace A64

/-- `DA_SP`. -/
def sp : ℕ := 31

/-- `permanent_scratch_reg`. -/
def permanentScratchReg : ℕ := 16

/-- The instructions; `movConst` is the code of `de64_MOVconst`. -/
inductive Inst where
  | movzw (dst : ℕ)
  | movConst (dst : ℕ) (imm : BitVec 64)
  | subxUxtx (dst a b : ℕ) (shift : ℕ)
  | subxi (dst a : ℕ) (imm : BitVec 64)
  | andxi (dst a : ℕ) (imm : BitVec 64)
  | lslxi (dst a : ℕ) (imm : ℕ)
  | mulx (dst a b : ℕ)
  | movSpx (dst a : ℕ)
  deriving DecidableEq

def Inst.exec (i : Inst) (s : State) : State :=
  match i with
  | movzw dst => Function.update s dst 0
  | movConst dst imm => Function.update s dst imm
  | subxUxtx dst a b shift => Function.update s dst (s a - s b <<< shift)
  | subxi dst a imm => Function.update s dst (s a - imm)
  | andxi dst a imm => Function.update s dst (s a &&& imm)
  | lslxi dst a imm => Function.update s dst (s a <<< imm)
  | mulx dst a b => Function.update s dst (s a * s b)
  | movSpx dst a => Function.update s dst (s a)

/-- `materialize_constant` of a general purpose register. -/
def materializeConstant (data : BitVec 64) (dst : ℕ) : Inst := if data = 0 then .movzw dst
    else .movConst dst data

/-- `alloca_fixed`. -/
def allocaFixed (size : BitVec 64) (align : BitVec 32) (resReg : ℕ) : Option (List Inst) :=
  let size := alignUp16 size
  if ¬ ValidAlign align then none
  else
    some ((if 0x100000 ≤ size then
      [materializeConstant size permanentScratchReg, .subxUxtx resReg sp permanentScratchReg 0]
        else if 0x1000 ≤ size then
          [.subxi resReg sp (size &&& 0xfff000), .subxi resReg resReg (size &&& 0xfff)]
        else [.subxi resReg sp (size &&& 0xfff)]) ++
      (if 16 < align then [.andxi resReg resReg (~~~(align.setWidth 64 - 1))] else []) ++
      if 0 < size then [.movSpx sp resReg] else [])

/-- The first part of `alloca_dynamic`. -/
def lowered (elemSize : BitVec 64) (r : AllocaRegs [sp, permanentScratchReg]) : List Inst :=
  if elemSize = 0 then [.movzw r.resReg]
  else if elemSize &&& (elemSize - 1) = 0 then
    let shift := elemSize.ctz.toNat
    if shift ≤ 4 then [.subxUxtx r.resReg sp r.sizeReg shift]
      else [.lslxi r.resReg r.sizeReg shift, .subxUxtx r.resReg sp r.resReg 0]
  else [materializeConstant elemSize permanentScratchReg, .mulx r.resReg r.sizeReg permanentScratchReg,
    .subxUxtx r.resReg sp r.resReg 0]

/-- `alloca_dynamic`. -/
def allocaDynamic (elemSize : BitVec 64) (align : BitVec 32)
    (r : AllocaRegs [sp, permanentScratchReg]) : Option (List Inst) :=
  if ¬ ValidAlign align then none
  else
    some (lowered elemSize r ++
      (if elemSize &&& (stackAlign align - 1).setWidth 64 ≠ 0 then
        [.andxi r.resReg r.resReg (~~~((stackAlign align).setWidth 64 - 1))] else []) ++
      [.movSpx sp r.resReg])

end A64

/-! ### What is asked -/

/-- The result is the new stack pointer, which has the alignment and that of the stack; the bytes,
rounded up to 16, are above it and below the old one. -/
structure Allocated (before after : State) (sp resReg bytes : ℕ) (align : BitVec 32) : Prop where
  result : after resReg = after sp
  aligned : align.toNat ∣ (after sp).toNat
  stackAligned : 16 ∣ (after sp).toNat
  room : (after sp).toNat + 16 * ((bytes + 15) / 16) ≤ (before sp).toNat

section
variable {ι : Type*} {exec : ι → State → State}

@[simp] theorem run_nil (s : State) : run exec [] s = s := rfl

@[simp] theorem run_cons (i : ι) (code : List ι) (s : State) :
    run exec (i :: code) s = run exec code (exec i s) := rfl

@[simp] theorem run_append (code code' : List ι) (s : State) :
    run exec (code ++ code') s = run exec code' (run exec code s) :=
  List.foldl_append

end

/-- What is promised: a stack pointer with the alignment of the stack, and room below it for the bytes. -/
structure HasRoom (sp : BitVec 64) (bytes : ℕ) : Prop where
  stackAligned : 16 ∣ sp.toNat
  room : bytes ≤ sp.toNat

/-! ### Arithmetic -/

section
variable {align : BitVec 32} {j k n : ℕ} {v old : BitVec 64}

theorem validAlign_iff : ValidAlign align ↔ ∃ j, align.toNat = 2 ^ j := isPowerOfTwo_iff

/-- The alignment that is masked to. -/
theorem toNat_stackAlign (h : align.toNat = 2 ^ j) : (stackAlign align).toNat = 2 ^ max 4 j := by
  rw [stackAlign]
  split
  case isTrue hlt =>
    have hlt : 2 ^ 4 < 2 ^ j := h ▸ hlt
    rw [h, max_eq_right ((Nat.pow_lt_pow_iff_right (by decide)).mp hlt).le]
  case isFalse hge =>
    have hge : 2 ^ j ≤ 2 ^ 4 := h ▸ not_lt.mp hge
    rw [max_eq_left ((Nat.pow_le_pow_iff_right (by decide)).mp hge)]
    rfl

/-- Masked, the stack pointer is aligned, and the bytes fit. -/
theorem room_of_masked {mask : BitVec 64} (hmask : mask.toNat = 2 ^ k) (hk : 4 ≤ k)
    (hold : 16 ∣ old.toNat) (hv : v.toNat + n = old.toNat) :
    2 ^ k ∣ (v &&& ~~~(mask - 1)).toNat ∧ (v &&& ~~~(mask - 1)).toNat + 16 * ((n + 15) / 16) ≤ old.toNat := by
  rw [toNat_and_not_mask hmask]
  refine ⟨dvd_mul_right _ _, ?_⟩
  have hle : 2 ^ k * (v.toNat / 2 ^ k) ≤ v.toNat := Nat.mul_div_le _ _
  have hdvd : 16 ∣ 2 ^ k * (v.toNat / 2 ^ k) := Dvd.dvd.mul_right (pow_dvd_pow 2 hk) _
  omega

/-- Rounded to the alignment of the stack, bytes are taken from it as they are. -/
theorem toNat_alignUp16 {size : BitVec 64} (h : size.toNat ≤ old.toNat) (hold : 16 ∣ old.toNat) :
    (alignUp16 size).toNat = 16 * ((size.toNat + 15) / 16) := by
  have hlt := old.isLt
  rw [alignUp16, toNat_and_not_mask (k := 4) rfl, BitVec.toNat_add,
    show (16 - 1 : BitVec 64).toNat = 15 from rfl]
  omega

/-- A 32-bit mask with its sign extended. -/
theorem signExtend_not_mask (h : align.toNat = 2 ^ j) (hj : j < 31) :
    (~~~(align - 1)).signExtend 64 = ~~~(align.setWidth 64 - 1) := by
  have h64 : (align.setWidth 64).toNat = 2 ^ j := by
    rw [BitVec.toNat_setWidth, h, Nat.mod_eq_of_lt (Nat.pow_lt_pow_right (by decide) (by omega))]
  rw [sub_one_eq h, sub_one_eq h64]
  apply BitVec.eq_of_getLsbD_eq
  intro i hi
  rw [BitVec.getLsbD_signExtend, BitVec.getLsbD_not, BitVec.getLsbD_not, BitVec.getLsbD_ofNat,
    BitVec.getLsbD_ofNat,
    Nat.testBit_two_pow_sub_one, BitVec.msb_eq_getLsbD_last, BitVec.getLsbD_not, BitVec.getLsbD_ofNat,
      Nat.testBit_two_pow_sub_one]
  by_cases h32 : i < 32
  · simp [hi, h32]
  · simp [hi, h32, show ¬ 31 < j by omega, show ¬ i < j by omega]

/-- A number of 31 bits as a sign extended immediate. -/
theorem signExtend_setWidth {x : BitVec 64} (h : x.toNat < 2 ^ 31) : (x.setWidth 32).signExtend 64 = x := by
  have hmsb : (x.setWidth 32).msb = false := by
    rw [BitVec.msb_eq_false_iff_two_mul_lt, BitVec.toNat_setWidth, Nat.mod_eq_of_lt (by omega)]
    omega
  apply BitVec.eq_of_toNat_eq
  rw [BitVec.signExtend_eq_setWidth_of_msb_false hmsb, BitVec.toNat_setWidth, BitVec.toNat_setWidth]
  omega

/-- Times a power of two, as a shift. -/
theorem shiftLeft_eq_mul {x y : BitVec 64} (h : y.toNat = 2 ^ k) : x <<< k = y * x := by
  have hk : k < 64 := (Nat.pow_lt_pow_iff_right (by decide)).mp (h ▸ y.isLt)
  rw [BitVec.shiftLeft_eq_mul_twoPow, BitVec.mul_comm]
  congr 1
  apply BitVec.eq_of_toNat_eq
  rw [h, BitVec.toNat_twoPow, Nat.mod_eq_of_lt (Nat.pow_lt_pow_right (by decide) hk)]

end

/-! ### The code of x64 -/

namespace X64

variable {elemSize size : BitVec 64} {align : BitVec 32} {r : Regs} {s : State}

theorem Regs.ne (r : Regs) : r.resReg ≠ sp ∧ r.sizeReg ≠ sp ∧ r.tmp ≠ sp ∧ r.tmp ≠ r.sizeReg ∧
    r.tmp ≠ r.resReg := by
  have hres := r.res_notMem
  have hsize := r.size_notMem
  have htmp := r.tmp_notMem
  simp only [List.mem_cons, List.not_mem_nil, or_false, not_or] at hres hsize htmp
  exact ⟨hres, hsize, htmp⟩

/-- The product is in the result register. -/
theorem run_product : run Inst.exec (product elemSize r) s r.resReg = elemSize * s r.sizeReg ∧
    run Inst.exec (product elemSize r) s sp = s sp := by
  obtain ⟨hres, hsize, htmp, htmpSize, htmpRes⟩ := r.ne
  have hcopy : ∀ s : State,
    run Inst.exec (if r.sizeReg ≠ r.resReg then [.mov64rr r.resReg r.sizeReg] else []) s =
      Function.update s r.resReg (s r.sizeReg) := by
    intro s
    split
    · rfl
    · rename_i heq
      rw [run_nil, not_not.mp heq, Function.update_eq_self]
  rw [product]
  split
  case isTrue hzero =>
    simp [Inst.exec, hzero, hres.symm]
  case isFalse hne =>
    split
    case isTrue hand =>
      obtain ⟨k, hk⟩ := isPowerOfTwo_iff.mp ⟨hne, hand⟩
      rw [toNat_ctz hk]
      dsimp only
      split
      · have hscale : BitVec.ofNat 64 (1 <<< k) = elemSize := by
          apply BitVec.eq_of_toNat_eq
          rw [BitVec.toNat_ofNat, Nat.shiftLeft_eq, one_mul, ← hk, Nat.mod_eq_of_lt elemSize.isLt]
        simp [Inst.exec, hscale, BitVec.mul_comm, hres.symm]
      · rw [run_append, hcopy]
        split
        · simp [Inst.exec, hres.symm, shiftLeft_eq_mul hk]
        · rename_i hone
          simp [not_not.mp hone, hres.symm]
    case isFalse hand =>
      split
      case isTrue hsmall =>
        have hlt : elemSize.toNat < 2 ^ 31 := Nat.lt_succ_of_le hsmall
        simp [Inst.exec, signExtend_setWidth hlt, BitVec.mul_comm, hres.symm]
      case isFalse hlarge =>
        rw [run_cons, run_append, hcopy]
        simp [Inst.exec, BitVec.mul_comm, hres.symm, htmp.symm, htmpSize.symm, htmpRes]

/-- What `alloca_dynamic` leaves in the registers. -/
theorem run_allocaDynamic {code : List Inst} (h : allocaDynamic elemSize align r = some code) :
    run Inst.exec code s r.resReg = run Inst.exec code s sp ∧
      run Inst.exec code s sp =
        if elemSize &&& (stackAlign align - 1).setWidth 64 = 0 then s sp - elemSize * s r.sizeReg
        else (s sp - elemSize * s r.sizeReg) &&& (~~~(stackAlign align - 1)).signExtend 64 := by
  obtain ⟨hres, hsize, htmp, htmpSize, htmpRes⟩ := r.ne
  have hprod : run Inst.exec (product elemSize r) s r.resReg = elemSize * s r.sizeReg := run_product.1
  have hsp : run Inst.exec (product elemSize r) s sp = s sp := run_product.2
  simp only [allocaDynamic, Option.ite_none_left_eq_some, Option.some_inj] at h
  obtain ⟨-, rfl⟩ := h
  rw [run_append, run_append, run_append]
  generalize run Inst.exec (product elemSize r) s = s₁ at hprod hsp
  by_cases hmask : elemSize &&& (stackAlign align - 1).setWidth 64 = 0
  · rw [if_neg (not_not.mpr hmask), if_pos hmask]
    simp [Inst.exec, hres.symm, hprod, hsp]
  · rw [if_pos hmask, if_neg hmask]
    simp [Inst.exec, hres.symm, hprod, hsp]

/-- What `alloca_fixed` leaves in the registers. -/
theorem run_allocaFixed {code : List Inst} {resReg : ℕ} (hres : resReg ≠ sp)
    (h : allocaFixed size align resReg = some code) :
    run Inst.exec code s resReg = run Inst.exec code s sp ∧
      run Inst.exec code s sp =
        if 16 < align then (s sp - alignUp16 size) &&& (~~~(align - 1)).signExtend 64
          else s sp - alignUp16 size := by
  simp only [allocaFixed, Option.ite_none_left_eq_some, Option.some_inj, not_or, not_not] at h
  obtain ⟨⟨-, hsize, -⟩, rfl⟩ := h
  have hlt : (alignUp16 size).toNat < 2 ^ 31 := hsize
  have hsub :
    run Inst.exec (if 0 < alignUp16 size then [.sub64ri sp ((alignUp16 size).setWidth 32)] else []) s =
      Function.update s sp (s sp - alignUp16 size) := by
    split
    case isTrue => simp [Inst.exec, signExtend_setWidth hlt]
    case isFalse hzero =>
      have hzero : alignUp16 size = 0 := BitVec.eq_of_toNat_eq (Nat.eq_zero_of_not_pos hzero)
      rw [run_nil, hzero, show s sp - 0 = s sp from BitVec.sub_zero _, Function.update_eq_self]
  rw [run_append, run_append, hsub]
  split
  · simp [Inst.exec, hres.symm]
  · simp [Inst.exec, hres.symm]

end X64

/-! ### The code of A64 -/

namespace A64

variable {elemSize size : BitVec 64} {align : BitVec 32} {r : AllocaRegs [sp, permanentScratchReg]}
    {s : State}

theorem exec_materializeConstant (data : BitVec 64) (dst : ℕ) :
    (materializeConstant data dst).exec s = Function.update s dst data := by
  rw [materializeConstant]
  split
  case isTrue hzero => rw [Inst.exec, hzero]
  case isFalse => rfl

theorem Regs.ne (r : AllocaRegs [sp, permanentScratchReg]) :
    r.resReg ≠ sp ∧ r.resReg ≠ permanentScratchReg ∧ r.sizeReg ≠ sp ∧ r.sizeReg ≠ permanentScratchReg := by
  have hres := r.res_notMem
  have hsize := r.size_notMem
  simp only [List.mem_cons, List.not_mem_nil, or_false, not_or] at hres hsize
  exact ⟨hres.1, hres.2, hsize⟩

/-- The lowered stack pointer is in the result register, or zero for elements of size zero. -/
theorem run_lowered :
    run Inst.exec (lowered elemSize r) s r.resReg =
    (if elemSize = 0 then 0 else s sp - elemSize * s r.sizeReg) ∧
    run Inst.exec (lowered elemSize r) s sp = s sp := by
  obtain ⟨hres, hresTmp, hsize, hsizeTmp⟩ := Regs.ne r
  have hsp : sp ≠ permanentScratchReg := by decide
  rw [lowered]
  split
  case isTrue hzero => simp [Inst.exec, hres.symm]
  case isFalse hne =>
    split
    case isTrue hand =>
      obtain ⟨k, hk⟩ := isPowerOfTwo_iff.mp ⟨hne, hand⟩
      rw [toNat_ctz hk]
      dsimp only
      split
      · simp [Inst.exec, hres.symm, shiftLeft_eq_mul hk]
      · simp [Inst.exec, hres.symm, shiftLeft_eq_mul hk]
    case isFalse hand =>
      rw [run_cons, exec_materializeConstant]
      simp [Inst.exec, hres.symm, hsp, hsizeTmp, BitVec.mul_comm]

/-- What `alloca_dynamic` leaves in the registers. -/
theorem run_allocaDynamic {code : List Inst} (h : allocaDynamic elemSize align r = some code) :
    run Inst.exec code s r.resReg = run Inst.exec code s sp ∧
      run Inst.exec code s sp =
        if elemSize &&& (stackAlign align - 1).setWidth 64 = 0 then
          (if elemSize = 0 then 0 else s sp - elemSize * s r.sizeReg)
        else (s sp - elemSize * s r.sizeReg) &&& ~~~((stackAlign align).setWidth 64 - 1) := by
  obtain ⟨hres, hresTmp, hsize, hsizeTmp⟩ := Regs.ne r
  have hlow : run Inst.exec (lowered elemSize r) s r.resReg =
    (if elemSize = 0 then 0 else s sp - elemSize * s r.sizeReg) := run_lowered.1
  simp only [allocaDynamic, Option.ite_none_left_eq_some, Option.some_inj] at h
  obtain ⟨-, rfl⟩ := h
  rw [run_append, run_append]
  generalize run Inst.exec (lowered elemSize r) s = s₁ at hlow
  by_cases hmask : elemSize &&& (stackAlign align - 1).setWidth 64 = 0
  · rw [if_neg (not_not.mpr hmask), if_pos hmask]
    simp [Inst.exec, hres, hlow]
  · have hne : elemSize ≠ 0 := by
      rintro rfl
      exact hmask (BitVec.zero_and)
    rw [if_neg hne] at hlow
    rw [if_pos hmask, if_neg hmask]
    simp [Inst.exec, hres, hlow]

/-- The two immediates of a subtraction are the size. -/
theorem immediates (h : size.toNat < 2 ^ 24) : (size &&& 0xfff000) + (size &&& 0xfff) = size := by
  have hdisjoint : (size &&& 0xfff000) &&& (size &&& 0xfff) = 0#64 := by
    rw [BitVec.and_assoc, ← BitVec.and_assoc _ size, BitVec.and_comm _ size, BitVec.and_assoc,
      show (0xfff000 &&& 0xfff : BitVec 64) = 0 by decide]
    simp
  rw [BitVec.add_eq_or_of_and_eq_zero _ _ hdisjoint, ← BitVec.and_or_distrib_left]
  apply BitVec.eq_of_toNat_eq
  rw [BitVec.toNat_and, show (0xfff000 ||| 0xfff : BitVec 64).toNat = 2 ^ 24 - 1 by decide,
    Nat.and_two_pow_sub_one_eq_mod, Nat.mod_eq_of_lt h]

/-- The first part of `alloca_fixed` leaves the lowered stack pointer in the result register. -/
theorem run_lowerFixed {resReg : ℕ} (hres : resReg ≠ sp) :
    let code := if 0x100000 ≤ size then
      [materializeConstant size permanentScratchReg, .subxUxtx resReg sp permanentScratchReg 0]
      else if 0x1000 ≤ size then [.subxi resReg sp (size &&& 0xfff000), .subxi resReg resReg (size &&& 0xfff)]
      else [.subxi resReg sp (size &&& 0xfff)]
    run Inst.exec code s resReg = s sp - size ∧ run Inst.exec code s sp = s sp := by
  have hsp : sp ≠ permanentScratchReg := by decide
  dsimp only
  split
  case isTrue =>
    rw [run_cons, exec_materializeConstant]
    simp [Inst.exec, hres.symm, hsp]
  case isFalse hlarge =>
    have hlarge : size.toNat < 2 ^ 20 := not_le.mp hlarge
    split
    case isTrue =>
      have hsum := immediates (show size.toNat < 2 ^ 24 by omega)
      simp only [run_cons, run_nil, Inst.exec, Function.update_self, Function.update_of_ne hres.symm,
        and_true]
      generalize size &&& 0xfff000 = a at hsum ⊢
      generalize size &&& 0xfff = b at hsum ⊢
      rw [← hsum]
      bv_omega
    case isFalse hmiddle =>
      have hmiddle : size.toNat < 2 ^ 12 := not_le.mp hmiddle
      have hlow : size &&& 0xfff = size := by
        apply BitVec.eq_of_toNat_eq
        rw [BitVec.toNat_and, show (0xfff : BitVec 64).toNat = 2 ^ 12 - 1 by decide,
          Nat.and_two_pow_sub_one_eq_mod, Nat.mod_eq_of_lt hmiddle]
      rw [hlow]
      simp [Inst.exec, hres.symm]

/-- What `alloca_fixed` leaves in the registers. -/
theorem run_allocaFixed {code : List Inst} {resReg : ℕ} (hres : resReg ≠ sp)
    (h : allocaFixed size align resReg = some code) :
    run Inst.exec code s resReg =
        (if 16 < align then (s sp - alignUp16 size) &&& ~~~(align.setWidth 64 - 1)
          else s sp - alignUp16 size) ∧
      run Inst.exec code s sp = if 0 < alignUp16 size then run Inst.exec code s resReg else s sp := by
  simp only [allocaFixed, Option.ite_none_left_eq_some, Option.some_inj] at h
  obtain ⟨-, rfl⟩ := h
  obtain ⟨hlow, hsp⟩ := @run_lowerFixed (alignUp16 size) s resReg hres
  rw [run_append, run_append]
  generalize run Inst.exec (if 0x100000 ≤ alignUp16 size then _ else _) s = s₁ at hlow hsp ⊢
  have hmask : ∀ s' : State,
    s' = run Inst.exec (if 16 < align then [.andxi resReg resReg (~~~(align.setWidth 64 - 1))] else []) s₁ →
      s' resReg = (if 16 < align then (s sp - alignUp16 size) &&& ~~~(align.setWidth 64 - 1)
        else s sp - alignUp16 size) ∧
        s' sp = s sp := by
    rintro s' rfl
    split
    · simp [Inst.exec, hlow, hsp, hres.symm]
    · exact ⟨hlow, hsp⟩
  obtain ⟨hmasked, hsp⟩ := hmask _ rfl
  generalize run Inst.exec (if 16 < align then _ else _) s₁ = s₂ at hmasked hsp ⊢
  split
  · simp [Inst.exec, hmasked, hres]
  · exact ⟨hmasked, hsp⟩

end A64

/-! ### What is right -/

section
variable {align : BitVec 32} {j : ℕ} {elemSize count size : BitVec 64} {before after : State} {sp resReg : ℕ}

/-- The bytes below the old stack pointer, without a wrap. -/
theorem toNat_lowered (h : elemSize.toNat * count.toNat ≤ (before sp).toNat) :
    (before sp - elemSize * count).toNat + elemSize.toNat * count.toNat = (before sp).toNat := by
  have hlt := (before sp).isLt
  have hmul : (elemSize * count).toNat = elemSize.toNat * count.toNat := by
    rw [BitVec.toNat_mul, Nat.mod_eq_of_lt (by omega)]
  rw [BitVec.toNat_sub, hmul]
  omega

theorem toNat_stackAlign64 (h : align.toNat = 2 ^ j) :
    ((stackAlign align).setWidth 64).toNat = 2 ^ max 4 j := by
  rw [BitVec.toNat_setWidth, toNat_stackAlign h, ← toNat_stackAlign h]
  exact Nat.mod_eq_of_lt ((stackAlign align).isLt.trans (by decide))

/-- The test whether the stack pointer is masked. -/
theorem unmasked_iff (h : align.toNat = 2 ^ j) : elemSize &&& (stackAlign align - 1).setWidth 64 = 0 ↔
    2 ^ max 4 j ∣ elemSize.toNat := by
  have hmask : (stackAlign align - 1).setWidth 64 = (stackAlign align).setWidth 64 - 1 := by
    have hlt : 2 ^ max 4 j < 2 ^ 32 := toNat_stackAlign h ▸ (stackAlign align).isLt
    rw [sub_one_eq (toNat_stackAlign h), sub_one_eq (toNat_stackAlign64 h)]
    apply BitVec.eq_of_toNat_eq
    rw [BitVec.toNat_setWidth, BitVec.toNat_ofNat, BitVec.toNat_ofNat]
    omega
  rw [hmask]
  exact and_mask_eq_zero_iff (toNat_stackAlign64 h)

/-- The condition: the stack pointer is masked where the size does not align it. -/
def Aligns (elemSize : BitVec 64) (align : BitVec 32) (sp : BitVec 64) : Prop :=
  align.toNat ≤ 16 ∨ ¬ align.toNat ∣ elemSize.toNat ∨ align.toNat ∣ sp.toNat

/-- Masked only where the size of an element is not a multiple of the alignment, the stack pointer is
right exactly if the condition holds. -/
theorem allocated_iff (h : align.toNat = 2 ^ j) (hroom : HasRoom (before sp) (elemSize.toNat * count.toNat))
    (hres : after resReg = after sp)
    (hsp : after sp = if elemSize &&& (stackAlign align - 1).setWidth 64 = 0 then
      before sp - elemSize * count
        else (before sp - elemSize * count) &&& ~~~((stackAlign align).setWidth 64 - 1)) :
    Allocated before after sp resReg (elemSize.toNat * count.toNat) align ↔
      Aligns elemSize align (before sp) := by
  obtain ⟨hold, hroom⟩ := hroom
  have hsum := toNat_lowered hroom
  have h16 : 16 ∣ 2 ^ max 4 j := pow_dvd_pow 2 (le_max_left 4 j)
  have halign : align.toNat ∣ 2 ^ max 4 j := h ▸ pow_dvd_pow 2 (le_max_right 4 j)
  by_cases hdvd : 2 ^ max 4 j ∣ elemSize.toNat
  · rw [if_pos ((unmasked_iff h).mpr hdvd)] at hsp
    have hbytes : 2 ^ max 4 j ∣ elemSize.toNat * count.toNat := hdvd.mul_right _
    have hbytes16 := h16.trans hbytes
    have hsp16 : 16 ∣ (before sp - elemSize * count).toNat := (Nat.dvd_add_left hbytes16).mp (hsum ▸ hold)
    have hiff : align.toNat ∣ (before sp - elemSize * count).toNat ↔ align.toNat ∣ (before sp).toNat := by
      rw [← hsum]
      exact (Nat.dvd_add_left (halign.trans hbytes)).symm
    constructor
    · intro hall
      have haligned := hall.aligned
      rw [hsp, hiff] at haligned
      exact .inr (.inr haligned)
    · intro hok
      refine ⟨hres, ?_, hsp ▸ hsp16, ?_⟩
      · rw [hsp]
        rcases hok with hle | hnot | hdvd
        · have hj : j ≤ 4 :=
            (Nat.pow_le_pow_iff_right (by decide : 1 < 2)).mp (show 2 ^ j ≤ 2 ^ 4 from h ▸ hle)
          exact (h ▸ pow_dvd_pow 2 hj : align.toNat ∣ 2 ^ 4).trans hsp16
        · exact absurd (halign.trans hdvd) hnot
        · exact hiff.mpr hdvd
      · rw [hsp]
        omega
  · rw [if_neg (mt (unmasked_iff h).mp hdvd)] at hsp
    obtain ⟨hmask, hfits⟩ := room_of_masked (toNat_stackAlign64 h) (le_max_left 4 j) hold hsum
    rw [← hsp] at hmask hfits
    refine iff_of_true ⟨hres, halign.trans hmask, h16.trans hmask, hfits⟩ ?_
    rcases le_or_gt j 4 with hj | hj
    · exact .inl (h ▸ (Nat.pow_le_pow_iff_right (by decide : 1 < 2)).mpr hj)
    · rw [max_eq_right hj.le] at hdvd
      exact .inr (.inl (h ▸ hdvd))

/-- A fixed allocation: the stack pointer is masked whenever the alignment is above that of the stack. -/
theorem allocated_fixed (h : align.toNat = 2 ^ j) (hroom : HasRoom (before sp) size.toNat)
    (hres : after resReg = after sp)
    (hsp : after sp = if 16 < align then (before sp - alignUp16 size) &&& ~~~(align.setWidth 64 - 1)
      else before sp - alignUp16 size) :
    Allocated before after sp resReg size.toNat align := by
  obtain ⟨hold, hroom⟩ := hroom
  have hround := toNat_alignUp16 hroom hold
  have hlt := (before sp).isLt
  have hsum : (before sp - alignUp16 size).toNat + 16 * ((size.toNat + 15) / 16) = (before sp).toNat := by
    rw [BitVec.toNat_sub, hround]
    omega
  split at hsp
  case isTrue habove =>
    have habove : 2 ^ 4 < 2 ^ j := h ▸ habove
    have hj : 4 ≤ j := ((Nat.pow_lt_pow_iff_right (by decide)).mp habove).le
    have h64 : (align.setWidth 64).toNat = 2 ^ j := by
      rw [BitVec.toNat_setWidth, h, Nat.mod_eq_of_lt]
      exact h ▸ align.isLt.trans (by decide)
    obtain ⟨hmask, hfits⟩ := room_of_masked h64 hj hold hsum
    rw [← hsp] at hmask hfits
    exact ⟨hres, h ▸ hmask, (pow_dvd_pow 2 hj).trans hmask, by omega⟩
  case isFalse hle =>
    have hle : 2 ^ j ≤ 2 ^ 4 := h ▸ not_lt.mp hle
    have hj : j ≤ 4 := (Nat.pow_le_pow_iff_right (by decide)).mp hle
    have h16 : 16 ∣ (after sp).toNat := by
      rw [hsp]
      omega
    exact ⟨hres, (h ▸ pow_dvd_pow 2 hj : align.toNat ∣ 2 ^ 4).trans h16, h16, by rw [hsp]; exact hsum.le⟩

/-- No alignment is above `2 ^ 31`, which an instruction of x64 cannot mask to. -/
theorem lt_of_emitted (h : align.toNat = 2 ^ j) (hlt : stackAlign align < (1 : BitVec 32) <<< 31) :
    max 4 j < 31 := by
  have hlt : 2 ^ max 4 j < 2 ^ 31 := toNat_stackAlign h ▸ hlt
  exact (Nat.pow_lt_pow_iff_right (by omega)).mp hlt

end

/-! ### The four functions -/

section
variable {align : BitVec 32} {j : ℕ} {elemSize size : BitVec 64} {s : State} {resReg : ℕ}

/-- The code is emitted if the immediates of the masks fit. -/
theorem x64_dynamic_emitted (h : align.toNat = 2 ^ j) {r : X64.Regs} :
    (X64.allocaDynamic elemSize align r).isSome ↔ align.toNat < 2 ^ 31 ∨ align.toNat ∣ elemSize.toNat := by
  have hvalid : ValidAlign align := validAlign_iff.mpr ⟨j, h⟩
  have hmask : stackAlign align < (1 : BitVec 32) <<< 31 ↔ max 4 j < 31 := by
    have hlt : stackAlign align < (1 : BitVec 32) <<< 31 ↔ (stackAlign align).toNat < 2 ^ 31 := Iff.rfl
    rw [hlt, toNat_stackAlign h, Nat.pow_lt_pow_iff_right (by decide)]
  have hsome : (X64.allocaDynamic elemSize align r).isSome ↔ 2 ^ max 4 j ∣ elemSize.toNat ∨ max 4 j < 31 := by
    rw [← unmasked_iff h, ← hmask, X64.allocaDynamic]
    simp only [hvalid, not_true_eq_false, false_or]
    split
    case isTrue hfails => simpa using hfails
    case isFalse hfits =>
      refine iff_of_true rfl ?_
      by_contra hnot
      exact hfits (not_or.mp hnot)
  rw [hsome, h, Nat.pow_lt_pow_iff_right (by decide)]
  rcases le_or_gt 31 j with hj | hj
  · rw [max_eq_right (by omega), or_comm]
  · exact iff_of_true (.inr (by omega)) (.inl hj)

theorem x64_dynamic_iff (h : align.toNat = 2 ^ j) {r : X64.Regs}
    (hroom : HasRoom (s X64.sp) (elemSize.toNat * (s r.sizeReg).toNat)) :
    (∃ code, X64.allocaDynamic elemSize align r = some code ∧
        Allocated s (run X64.Inst.exec code s) X64.sp r.resReg (elemSize.toNat * (s r.sizeReg).toNat) align) ↔
      Aligns elemSize align (s X64.sp) ∧ (align.toNat < 2 ^ 31 ∨ align.toNat ∣ elemSize.toNat) := by
  rw [← @x64_dynamic_emitted _ _ elemSize h r]
  rcases hcode : X64.allocaDynamic elemSize align r with _ | code
  case none => simp
  case some =>
    obtain ⟨hres, hsp⟩ := X64.run_allocaDynamic (s := s) hcode
    have hiff := allocated_iff h hroom hres
    rw [← hiff]
    · simp only [Option.some_inj, exists_eq_left', Option.isSome_some, and_true]
    · rw [hsp]
      split
      case isTrue => rfl
      case isFalse hmask =>
        simp only [X64.allocaDynamic, Option.ite_none_left_eq_some, not_or, not_and, not_not] at hcode
        have hlt := lt_of_emitted h (hcode.1.2 hmask)
        rw [signExtend_not_mask (toNat_stackAlign h) hlt]

theorem x64_fixed (h : align.toNat = 2 ^ j) (hres : resReg ≠ X64.sp)
    (hroom : HasRoom (s X64.sp) size.toNat) {code : List X64.Inst}
    (hcode : X64.allocaFixed size align resReg = some code) :
    Allocated s (run X64.Inst.exec code s) X64.sp resReg size.toNat align := by
  obtain ⟨hresult, hsp⟩ := X64.run_allocaFixed (s := s) hres hcode
  apply allocated_fixed h hroom hresult
  rw [hsp]
  split
  case isTrue habove =>
    simp only [X64.allocaFixed, Option.ite_none_left_eq_some, not_or, not_and, not_not] at hcode
    have hlt : 2 ^ j < 2 ^ 31 := h ▸ hcode.1.2.2 habove
    rw [signExtend_not_mask h ((Nat.pow_lt_pow_iff_right (by omega)).mp hlt)]
  case isFalse => rfl

theorem x64_fixed_iff (h : align.toNat = 2 ^ j) (hres : resReg ≠ X64.sp)
    (hroom : HasRoom (s X64.sp) size.toNat) :
    (∃ code, X64.allocaFixed size align resReg = some code ∧
      Allocated s (run X64.Inst.exec code s) X64.sp resReg size.toNat align) ↔
      size.toNat ≤ 2 ^ 31 - 16 ∧ align.toNat < 2 ^ 31 := by
  have hvalid : ValidAlign align := validAlign_iff.mpr ⟨j, h⟩
  have hround := toNat_alignUp16 hroom.room hroom.stackAligned
  have hsize : alignUp16 size < 0x80000000 ↔ size.toNat ≤ 2 ^ 31 - 16 := by
    have hlt : alignUp16 size < 0x80000000 ↔ (alignUp16 size).toNat < 2 ^ 31 := Iff.rfl
    rw [hlt, hround]
    omega
  have hmask : 16 < align ∧ ¬ align < (1 : BitVec 32) <<< 31 ↔ ¬ align.toNat < 2 ^ 31 := by
    have hlt : align < (1 : BitVec 32) <<< 31 ↔ align.toNat < 2 ^ 31 := Iff.rfl
    have habove : (16 : BitVec 32) < align ↔ 16 < align.toNat := Iff.rfl
    rw [hlt, habove]
    omega
  have hemitted : (X64.allocaFixed size align resReg).isSome ↔ size.toNat ≤ 2 ^ 31 - 16 ∧
    align.toNat < 2 ^ 31 := by
    rw [X64.allocaFixed]
    simp only [hvalid, not_true_eq_false, false_or, hsize, hmask]
    split
    case isTrue hfails =>
      exact iff_of_false (by simp) fun hfits => hfails.elim (absurd hfits.1) (absurd hfits.2)
    case isFalse hfits =>
      rw [not_or, not_not, not_not] at hfits
      exact iff_of_true rfl hfits
  rw [← hemitted, Option.isSome_iff_exists]
  exact exists_congr fun code => and_iff_left_of_imp fun hcode => x64_fixed h hres hroom hcode

/-- Elements of size zero set the stack pointer to zero. -/
theorem a64_dynamic_zero {r : AllocaRegs [A64.sp, A64.permanentScratchReg]} {code : List A64.Inst}
    (hcode : A64.allocaDynamic 0 align r = some code) : run A64.Inst.exec code s A64.sp = 0 := by
  rw [(A64.run_allocaDynamic hcode).2, BitVec.ofNat_eq_ofNat, BitVec.zero_and]
  rfl

theorem a64_dynamic_iff (h : align.toNat = 2 ^ j) {r : AllocaRegs [A64.sp, A64.permanentScratchReg]}
    (hroom : HasRoom (s A64.sp) (elemSize.toNat * (s r.sizeReg).toNat)) :
    (∃ code, A64.allocaDynamic elemSize align r = some code ∧
        Allocated s (run A64.Inst.exec code s) A64.sp r.resReg (elemSize.toNat * (s r.sizeReg).toNat) align) ↔
      elemSize = 0 ∨ Aligns elemSize align (s A64.sp) := by
  have hvalid : ValidAlign align := validAlign_iff.mpr ⟨j, h⟩
  obtain ⟨code, hcode⟩ : ∃ code, A64.allocaDynamic elemSize align r = some code := by
    simp only [A64.allocaDynamic, hvalid, not_true_eq_false, if_false, Option.some_inj, exists_eq']
  obtain ⟨hres, hsp⟩ := A64.run_allocaDynamic (s := s) hcode
  have honly : (∃ code, A64.allocaDynamic elemSize align r = some code ∧
      Allocated s (run A64.Inst.exec code s) A64.sp r.resReg (elemSize.toNat * (s r.sizeReg).toNat) align) ↔
        Allocated s (run A64.Inst.exec code s) A64.sp r.resReg (elemSize.toNat * (s r.sizeReg).toNat)
          align := by
    simp only [hcode, Option.some_inj, exists_eq_left']
  rw [honly]
  rcases eq_or_ne elemSize 0 with hzero | hne
  · subst hzero
    have hsp := a64_dynamic_zero (s := s) hcode
    refine iff_of_true ⟨hres, ?_, ?_, ?_⟩ (.inl rfl)
    · simp [hsp]
    · simp [hsp]
    · simp [hsp]
  · rw [if_neg hne] at hsp
    rw [allocated_iff h hroom hres hsp, or_iff_right hne]

theorem a64_fixed_iff (h : align.toNat = 2 ^ j) (hres : resReg ≠ A64.sp)
    (hroom : HasRoom (s A64.sp) size.toNat) :
    (∃ code, A64.allocaFixed size align resReg = some code ∧
      Allocated s (run A64.Inst.exec code s) A64.sp resReg size.toNat align) ↔
      size ≠ 0 ∨ align.toNat ≤ 16 ∨ align.toNat ∣ (s A64.sp).toNat := by
  have hvalid : ValidAlign align := validAlign_iff.mpr ⟨j, h⟩
  obtain ⟨code, hcode⟩ : ∃ code, A64.allocaFixed size align resReg = some code := by
    simp only [A64.allocaFixed, hvalid, not_true_eq_false, if_false, Option.some_inj, exists_eq']
  obtain ⟨hresult, hsp⟩ := A64.run_allocaFixed (s := s) hres hcode
  have honly : (∃ code, A64.allocaFixed size align resReg = some code ∧
      Allocated s (run A64.Inst.exec code s) A64.sp resReg size.toNat align) ↔
        Allocated s (run A64.Inst.exec code s) A64.sp resReg size.toNat align := by
    simp only [hcode, Option.some_inj, exists_eq_left']
  have hround := toNat_alignUp16 hroom.room hroom.stackAligned
  rw [honly]
  by_cases hpos : 0 < alignUp16 size
  · have hne : size ≠ 0 := by
      rintro rfl
      exact absurd hpos (by decide)
    rw [if_pos hpos] at hsp
    exact iff_of_true (allocated_fixed h hroom hsp.symm (hsp.trans hresult)) (.inl hne)
  · have hup : alignUp16 size = 0 := BitVec.eq_of_toNat_eq (Nat.eq_zero_of_not_pos hpos)
    have hzero : size = 0 := by
      apply BitVec.eq_of_toNat_eq
      rw [hup] at hround
      simp only [BitVec.ofNat_eq_ofNat, BitVec.toNat_ofNat, Nat.zero_mod] at hround ⊢
      omega
    rw [if_neg hpos] at hsp
    subst hzero
    simp only [ne_eq, not_true_eq_false, false_or]
    constructor
    · intro hall
      exact .inr (hsp ▸ hall.aligned)
    · intro hok
      have hdvd : align.toNat ∣ (s A64.sp).toNat := by
        rcases hok with hle | hdvd
        · have hle : 2 ^ j ≤ 2 ^ 4 := h ▸ hle
          have hj : j ≤ 4 := (Nat.pow_le_pow_iff_right (by omega)).mp hle
          exact (h ▸ pow_dvd_pow 2 hj : align.toNat ∣ 2 ^ 4).trans hroom.stackAligned
        · exact hdvd
      -- nothing is taken from an aligned stack pointer, and the mask keeps it
      have hsub : s A64.sp - alignUp16 0 = s A64.sp := by
        rw [hup]
        exact BitVec.sub_zero _
      have hkept : run A64.Inst.exec code s resReg = s A64.sp := by
        rw [hresult, hsub]
        split
        case isTrue =>
          have h64 : (align.setWidth 64).toNat = 2 ^ j := by
            rw [BitVec.toNat_setWidth, h, Nat.mod_eq_of_lt]
            exact h ▸ align.isLt.trans (by decide)
          apply BitVec.eq_of_toNat_eq
          rw [toNat_and_not_mask h64, ← h, Nat.mul_div_cancel' hdvd]
        case isFalse => rfl
      refine ⟨hkept.trans hsp.symm, hsp ▸ hdvd, hsp ▸ hroom.stackAligned, ?_⟩
      rw [hsp]
      simp

/-- Code that is right is emitted exactly if the masking is not left out wrongly and the immediates fit:
for elements on an alignment above 16 whose size is a multiple of it, and for no bytes at all on A64,
the stack pointer has to have the alignment before; on x64 a fixed size and the alignments that are
masked to have 31 bits. -/
theorem alloca_iff (halign : ValidAlign align) :
    (∀ size resReg s, resReg ≠ X64.sp → HasRoom (s X64.sp) size.toNat →
      ((∃ code, X64.allocaFixed size align resReg = some code ∧
        Allocated s (run X64.Inst.exec code s) X64.sp resReg size.toNat align) ↔
      size.toNat ≤ 2 ^ 31 - 16 ∧ align.toNat < 2 ^ 31)) ∧
    (∀ elemSize r s, HasRoom (s X64.sp) (elemSize.toNat * (s r.sizeReg).toNat) →
      ((∃ code, X64.allocaDynamic elemSize align r = some code ∧
        Allocated s (run X64.Inst.exec code s) X64.sp r.resReg (elemSize.toNat * (s r.sizeReg).toNat) align) ↔
      (align.toNat ≤ 16 ∨ ¬ align.toNat ∣ elemSize.toNat ∨ align.toNat ∣ (s X64.sp).toNat) ∧
        (align.toNat < 2 ^ 31 ∨ align.toNat ∣ elemSize.toNat))) ∧
    (∀ size resReg s, resReg ≠ A64.sp → HasRoom (s A64.sp) size.toNat →
      ((∃ code, A64.allocaFixed size align resReg = some code ∧
        Allocated s (run A64.Inst.exec code s) A64.sp resReg size.toNat align) ↔
      size ≠ 0 ∨ align.toNat ≤ 16 ∨ align.toNat ∣ (s A64.sp).toNat)) ∧
    (∀ elemSize r s, HasRoom (s A64.sp) (elemSize.toNat * (s r.sizeReg).toNat) →
      ((∃ code, A64.allocaDynamic elemSize align r = some code ∧
        Allocated s (run A64.Inst.exec code s) A64.sp r.resReg (elemSize.toNat * (s r.sizeReg).toNat) align) ↔
      elemSize = 0 ∨ align.toNat ≤ 16 ∨ ¬ align.toNat ∣ elemSize.toNat ∨
        align.toNat ∣ (s A64.sp).toNat)) := by
  obtain ⟨j, h⟩ := validAlign_iff.mp halign
  refine ⟨?_, ?_, ?_, ?_⟩
  · intro size resReg s hres hroom
    exact x64_fixed_iff h hres hroom
  · intro elemSize r s hroom
    exact x64_dynamic_iff h hroom
  · intro size resReg s hres hroom
    exact a64_fixed_iff h hres hroom
  · intro elemSize r s hroom
    exact a64_dynamic_iff h hroom

/-- Eight bytes on an alignment of 32. -/
theorem alloca_iff_fixed :
    let s : State := fun reg => if reg = X64.sp then 4112 else 0
    ∃ code, X64.allocaFixed 8 32 0 = some code ∧ Allocated s (run X64.Inst.exec code s) X64.sp 0 8 32 :=
  ((alloca_iff (show ValidAlign 32 from ⟨by simp, rfl⟩)).1 8 0 (fun reg => if reg = X64.sp then 4112
    else 0) (Nat.zero_ne_add_one 3)
    ⟨⟨257, rfl⟩, show 8 ≤ 4112 by omega⟩).mpr ⟨by decide, by decide⟩

/-- One element of 32 bytes on an alignment of 32 is put 16 bytes off it. -/
theorem alloca_dynamic_unaligned :
    let s : State := fun reg => if reg = X64.sp then 4112 else 1
    let r : X64.Regs := ⟨⟨0, 0, by simp [X64.sp], by simp [X64.sp]⟩, 1, by simp [X64.sp]⟩
    ∃ code, ValidAlign 32 ∧ HasRoom (s X64.sp) ((32 : BitVec 64).toNat * (s r.sizeReg).toNat) ∧
      X64.allocaDynamic 32 32 r = some code ∧
      run X64.Inst.exec code s X64.sp = 4080 ∧
      ¬ Allocated s (run X64.Inst.exec code s) X64.sp r.resReg
        ((32 : BitVec 64).toNat * (s r.sizeReg).toNat) 32 := by
  refine ⟨[.shl64ri 0 5, .sub64rr X64.sp 0, .mov64rr 0 X64.sp], ?_, ?_, ?_, ?_, ?_⟩
  · decide
  · exact ⟨⟨257, rfl⟩, show 32 ≤ 4112 by omega⟩
  · rw [X64.allocaDynamic, X64.product, toNat_ctz (k := 5) rfl]
    rfl
  · decide
  · intro hall
    have haligned : 32 ∣ 4080 := hall.aligned
    omega

end

end Tpde.Target.Alloca
