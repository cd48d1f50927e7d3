import Tpde.Library.BitFields
import Tpde.Llvm.Icmp

/-!
# Integer comparisons on x86-64

The instructions `compile_icmp` emits for x86-64. A comparison of 128 bits subtracts the
high words with the borrow of the low ones, which leaves the zero flag of the high word
alone: the operands are swapped where the condition would read it
(`IcmpX64.compileIcmp_correct`).
-/

namespace Tpde.IcmpX64

open SubFlags Icmp

/-- The jumps that a comparison can give. -/
inductive Jump where
  | ja | jae | jb | jbe | je | jg | jge | jl | jle | jne
  deriving DecidableEq, Repr

namespace Jump

/-- `invert_jump`. -/
def invert : Jump → Jump
  | ja => jbe
  | jae => jb
  | jb => jae
  | jbe => ja
  | je => jne
  | jg => jle
  | jge => jl
  | jl => jge
  | jle => jg
  | jne => je

/-- `swap_jump`. -/
def swap : Jump → Jump
  | ja => jb
  | jae => jbe
  | jb => ja
  | jbe => jae
  | je => je
  | jne => jne
  | jg => jl
  | jge => jle
  | jl => jg
  | jle => jge

/-- The condition codes: the carry flag is the borrow. -/
def holds : Jump → Flags → Bool
  | ja, f => !f.borrow && !f.zero
  | jae, f => !f.borrow
  | jb, f => f.borrow
  | jbe, f => f.borrow || f.zero
  | je, f => f.zero
  | jg, f => !f.zero && f.neg == f.overflow
  | jge, f => f.neg == f.overflow
  | jl, f => f.neg != f.overflow
  | jle, f => f.zero || f.neg != f.overflow
  | jne, f => !f.zero

/-- The jump of a predicate. -/
def ofPredicate : Predicate → Jump
  | .eq => je
  | .ne => jne
  | .ugt => ja
  | .uge => jae
  | .ult => jb
  | .ule => jbe
  | .sgt => jg
  | .sge => jge
  | .slt => jl
  | .sle => jle

theorem holds_ofPredicate (p : Predicate) (f : Flags) : (ofPredicate p).holds f = p.reads f := by
  cases p <;> simp [ofPredicate, holds, Predicate.reads, Flags.less, bne]

theorem swap_ofPredicate (p : Predicate) : (ofPredicate p).swap = ofPredicate p.swap := by
  cases p <;> rfl

theorem holds_invert (j : Jump) (f : Flags) : j.invert.holds f = !j.holds f := by
  cases j <;> simp [invert, holds, bne, Bool.and_comm, Bool.or_comm]

end Jump

/-- The instructions of a comparison, with the size of their operands in bits. -/
inductive Inst where
  | mov32ri (dst : Reg) (imm : BitVec 32)
  | mov64ri (dst : Reg) (imm : BitVec 64)
  | mov32rr (dst src : Reg)
  | mov64rr (dst src : Reg)
  | movzx (fromBits : ℕ) (dst src : Reg)
  | movsx (toBits fromBits : ℕ) (dst src : Reg)
  | and32ri (dst : Reg) (imm : BitVec 32)
  | and64rr (dst src : Reg)
  | shl (bits : ℕ) (dst : Reg) (n : ℕ)
  | sar (bits : ℕ) (dst : Reg) (n : ℕ)
  | xor64rr (dst src : Reg)
  | or64rr (dst src : Reg)
  | cmp32ri (r : Reg) (imm : BitVec 32)
  | cmp64ri (r : Reg) (imm : BitVec 32)
  | cmprr (bits : ℕ) (a b : Reg)
  | test (bits : ℕ) (a b : Reg)
  | sbb64rr (dst src : Reg)
  | setcc8r (cc : Jump) (dst : Reg)
  | neg64r (dst : Reg)
  deriving DecidableEq, Repr

/-- The flags of a bitwise operation. -/
def logicFlags {w : ℕ} (v : BitVec w) : Flags := ⟨v = 0, v.msb, false, false⟩

/-- Runs an instruction. A write of 32 bits clears the high half of the register. The flags
of a shift are not used, and any. -/
def exec (shiftFlags : Flags) (i : Inst) (s : State) : State :=
  match i with
  | .mov32ri dst imm => s.set dst (imm.setWidth 64)
  | .mov64ri dst imm => s.set dst imm
  | .mov32rr dst src => s.set dst (((s.regs src).setWidth 32).setWidth 64)
  | .mov64rr dst src => s.set dst (s.regs src)
  | .movzx fromBits dst src => s.set dst (((s.regs src).setWidth fromBits).setWidth 64)
  | .movsx toBits fromBits dst src =>
    s.set dst ((((s.regs src).setWidth fromBits).signExtend toBits).setWidth 64)
  | .and32ri dst imm =>
    let v := (s.regs dst).setWidth 32 &&& imm
    { s.set dst (v.setWidth 64) with flags := logicFlags v }
  | .and64rr dst src =>
    let v := s.regs dst &&& s.regs src
    { s.set dst v with flags := logicFlags v }
  | .shl bits dst n => { s.set dst (((s.regs dst).setWidth bits <<< n).setWidth 64) with flags := shiftFlags }
  | .sar bits dst n => { s.set dst ((((s.regs dst).setWidth bits).sshiftRight n).setWidth 64) with
    flags := shiftFlags }
  | .xor64rr dst src =>
    let v := s.regs dst ^^^ s.regs src
    { s.set dst v with flags := logicFlags v }
  | .or64rr dst src =>
    let v := s.regs dst ||| s.regs src
    { s.set dst v with flags := logicFlags v }
  | .cmp32ri r imm => { s with flags := sub ((s.regs r).setWidth 32) imm false }
  | .cmp64ri r imm => { s with flags := sub (s.regs r) (imm.signExtend 64) false }
  | .cmprr bits a b => { s with flags := sub ((s.regs a).setWidth bits) ((s.regs b).setWidth bits) false }
  | .test bits a b => { s with flags := logicFlags ((s.regs a).setWidth bits &&& (s.regs b).setWidth bits) }
  | .sbb64rr dst src =>
    { s.set dst (diff (s.regs dst) (s.regs src) s.flags.borrow) with
      flags := sub (s.regs dst) (s.regs src) s.flags.borrow }
  | .setcc8r cc dst =>
    s.set dst ((s.regs dst).extractLsb' 8 56 ++ (BitVec.ofBool (cc.holds s.flags)).setWidth 8)
  | .neg64r dst => { s.set dst (-(s.regs dst)) with flags := sub 0 (s.regs dst) false }

/-- `materialize_constant`. -/
def materializeConstant (data : BitVec 64) (size : ℕ) (dst : Reg) : List Inst :=
  if data = 0 then [.mov32ri dst 0]
  else if size ≤ 4 ∨ (data.setWidth 32).setWidth 64 = data then [.mov32ri dst (data.setWidth 32)]
  else [.mov64ri dst data]

/-- `generate_raw_intext`. -/
def generateRawIntext (dst src : Reg) (sign : Bool) (fromBits toBits : ℕ) (tmp : Reg) : List Inst :=
  if !sign then
    if fromBits = 8 ∨ fromBits = 16 then [.movzx fromBits dst src]
    else if fromBits = 32 then [.mov32rr dst src]
    else if fromBits < 32 then
      (if dst ≠ src then [.mov32rr dst src] else []) ++ [.and32ri dst (BitVec.ofNat 32 (2 ^ fromBits - 1))]
    else if dst ≠ src then [.mov64ri dst (BitVec.ofNat 64 (2 ^ fromBits - 1)), .and64rr dst src]
    else [.mov64ri tmp (BitVec.ofNat 64 (2 ^ fromBits - 1)), .and64rr dst tmp]
  else if toBits ≤ 32 then
    if fromBits = 8 ∨ fromBits = 16 then [.movsx 32 fromBits dst src]
    else (if dst ≠ src then [.mov32rr dst src] else []) ++ [.shl 32 dst (32 - fromBits),
      .sar 32 dst (32 - fromBits)]
  else if fromBits = 8 ∨ fromBits = 16 ∨ fromBits = 32 then [.movsx 64 fromBits dst src]
  else (if dst ≠ src then [.mov64rr dst src] else []) ++ [.shl 64 dst (64 - fromBits),
    .sar 64 dst (64 - fromBits)]

/-- What x86-64 supplies. -/
def derived (shiftFlags : Flags) : Derived Inst where
  exec := exec shiftFlags
  materializeConstant := materializeConstant
  generateRawIntext := generateRawIntext

def jumps : Jumps Jump where
  invert := Jump.invert
  holds j s := j.holds s.flags
  holds_invert j s := j.holds_invert s.flags

/-- `generate_raw_set` and `generate_raw_mask`. -/
def users : Users Inst Jump Jump where
  jump := id
  set cc dst := [.setcc8r cc dst]
  setExt cc dst := [.mov32ri dst 0, .setcc8r cc dst]
  mask cc dst := [.mov32ri dst 0, .setcc8r cc dst, .neg64r dst]

section
variable (D : Derived Inst) (A : Alloc)

/-- `reload_into_specific_fixed`. -/
def reloadInto (p : Part) (dst : Reg) : List Inst :=
  match p with
  | .const data size => D.materializeConstant data size dst
  | .reg r _ => [.mov64rr dst r]

/-- The comparison of two operands of 128 bits. -/
def compareWide (jump : Jump) (lhs rhs : Part × Part) (c : Ctx Inst) : Jump × Ctx Inst :=
  let (jump, lhs, rhs) :=
    if jump = .ja ∨ jump = .jbe ∨ jump = .jle ∨ jump = .jg then (jump.swap, rhs, lhs) else (jump, lhs, rhs)
  let (rhsLo, c) := c.loadToReg D A rhs.1
  let (rhsHi, c) := c.loadToReg D A rhs.2
  if jump = .je ∨ jump = .jne then
    let (res, c) := c.allocGp A
    let c := c.asm (reloadInto D lhs.1 res)
    let (scratch, c) := c.allocGp A
    let c := c.asm (reloadInto D lhs.2 scratch)
    (jump, c.asm [.xor64rr res rhsLo, .xor64rr scratch rhsHi, .or64rr res scratch])
  else
    let (lhsLo, c) := c.loadToReg D A lhs.1
    let (res, c) := c.allocGp A
    let c := c.asm (reloadInto D lhs.2 res)
    (jump, c.asm [.cmprr 64 lhsLo rhsLo, .sbb64rr res rhsHi])

/-- The comparison of a register with an operand of up to 64 bits. -/
def compareWord (w : ℕ) (l : Reg) (rhs : Part) (c : Ctx Inst) : Ctx Inst :=
  if w ≤ 32 then
    match rhs with
    | .const data _ =>
      c.asm (if data.setWidth 32 ≠ 0 then [.cmp32ri l (data.setWidth 32)] else [.test 32 l l])
    | .reg r _ => c.asm [.cmprr 32 l r]
  else
    match rhs with
    | .const data size =>
      if (data.setWidth 32).signExtend 64 = data then
        c.asm (if data ≠ 0 then [.cmp64ri l (data.setWidth 32)] else [.test 64 l l])
      else
        let (r, c) := c.loadToReg D A (.const data size)
        c.asm [.cmprr 64 l r]
    | .reg r _ => c.asm [.cmprr 64 l r]

end

section
variable {B : Type} [DecidableEq B]

/-- `compile_icmp`: `dst` is the register that the result gets. -/
def compileIcmp (shiftFlags : Flags) (A : Alloc) (blocks : Blocks B) (cmp : Cmp B) (dst : Reg) :
    Compiled Inst Jump B :=
  let D := derived shiftFlags
  let jump := Jump.ofPredicate cmp.pred
  let c : Ctx Inst := ⟨cmp.regs, []⟩
  if cmp.width = 128 then
    let (jump, c) := compareWide D A jump (cmp.lhs.part0, cmp.lhs.part1) (cmp.rhs.part0, cmp.rhs.part1) c
    finish jumps users blocks cmp dst c.code jump
  else
    let (jump, _, l, rhs, c) :=
      c.prepare D A Jump.swap jump cmp.pred.isSigned cmp.width cmp.lhs.part0 cmp.rhs.part0
    let c := compareWord D A cmp.width l rhs c
    finish jumps users blocks cmp dst c.code jump

end

/-! ### The instruction sequences -/

theorem getLsbD_mask {w N : ℕ} (i : ℕ) :
    (BitVec.ofNat N (2 ^ w - 1)).getLsbD i = (decide (i < N) && decide (i < w)) := by
  rw [BitVec.getLsbD_ofNat, Nat.testBit_two_pow_sub_one]

section
variable (shiftFlags : Flags) {dst src tmp q : Reg} (s : State)

theorem materialize_self (data : BitVec 64) (size : ℕ) (r : Reg) {w : ℕ} (hw : w ≤ 64)
    (hsize : w ≤ 8 * size) :
    ((run (exec shiftFlags) (materializeConstant data size r) s).regs r).setWidth w = data.setWidth w := by
  simp only [materializeConstant]
  split_ifs with hzero hsmall
  · simp [exec, hzero]
  · simp only [run_cons, run_nil, exec, State.set_self]
    rcases hsmall with hsmall | hsmall
    · rw [BitVec.setWidth_setWidth_of_le _ hw, BitVec.setWidth_setWidth_of_le _ (by omega)]
    · rw [hsmall]
  · simp [exec]

/-- An unsigned extension leaves the low bits. -/
theorem intext_unsigned {w W : ℕ} (hlt : w < W) (hW : W = 32 ∨ W = 64) (htmp : tmp ≠ src) :
    (run (exec shiftFlags) (generateRawIntext dst src false w W tmp) s).regs dst =
      ((s.regs src).setWidth w).setWidth 64 := by
  have hmask {N : ℕ} (x : BitVec 64) (hN : w ≤ N) :
      (x.setWidth N &&& BitVec.ofNat N (2 ^ w - 1)).setWidth 64 = (x.setWidth w).setWidth 64 := by
    ext i hi
    rw [← BitVec.getLsbD_eq_getElem, ← BitVec.getLsbD_eq_getElem]
    simp only [BitVec.getLsbD_setWidth, BitVec.getLsbD_and, getLsbD_mask, hi, decide_true, Bool.true_and]
    by_cases hiw : i < w
    · simp [hiw, hi, show i < N by omega]
    · simp [hiw]
  have hmask64 (x : BitVec 64) : x &&& BitVec.ofNat 64 (2 ^ w - 1) = (x.setWidth w).setWidth 64 := by
    simpa only [BitVec.setWidth_eq] using hmask x (N := 64) (by omega)
  have hcopy (x : BitVec 64) : ((x.setWidth 32).setWidth 64).setWidth 32 = x.setWidth 32 := by simp
  simp only [generateRawIntext, Bool.not_false, if_true]
  by_cases hbyte : w = 8 ∨ w = 16
  · simp [hbyte, exec]
  by_cases h32 : w = 32
  · subst h32
    simp [exec]
  by_cases hlow : w < 32
  · by_cases heq : dst = src
    · simp [hbyte, h32, hlow, heq, exec, hmask _ hlow.le]
    · simp [hbyte, h32, hlow, heq, exec, -BitVec.setWidth_setWidth, hcopy, hmask _ hlow.le]
  · by_cases heq : dst = src
    · simp [hbyte, h32, hlow, heq, exec, State.set_other, htmp.symm, hmask64]
    · simp [hbyte, h32, hlow, heq, exec, State.set_other, Ne.symm heq, BitVec.and_comm _ (s.regs src),
        hmask64]

/-- A signed extension copies the sign. -/
theorem intext_signed {w W : ℕ} (hw : 0 < w) (hlt : w < W) (hW : W = 32 ∨ W = 64) :
    (run (exec shiftFlags) (generateRawIntext dst src true w W tmp) s).regs dst =
      (((s.regs src).setWidth w).signExtend W).setWidth 64 := by
  have hback (y : BitVec 32) : (y.setWidth 64).setWidth 32 = y := by simp
  simp only [generateRawIntext, Bool.not_true, Bool.false_eq_true, if_false]
  rcases hW with rfl | rfl
  · by_cases hbyte : w = 8 ∨ w = 16
    · simp [hbyte, exec]
    · by_cases heq : dst = src
      · simp [hbyte, heq, exec, -BitVec.setWidth_setWidth, hback, BitFields.sshiftRight_shiftLeft hw hlt.le]
        rw [BitVec.setWidth_setWidth_of_le _ hlt.le]
      · simp [hbyte, heq, exec, -BitVec.setWidth_setWidth, hback, BitFields.sshiftRight_shiftLeft hw hlt.le]
        rw [BitVec.setWidth_setWidth_of_le _ hlt.le]
  · by_cases hbyte : w = 8 ∨ w = 16 ∨ w = 32
    · simp [hbyte, exec]
    · by_cases heq : dst = src
      · simp [hbyte, heq, exec, BitFields.sshiftRight_shiftLeft hw hlt.le]
      · simp [hbyte, heq, exec, BitFields.sshiftRight_shiftLeft hw hlt.le]

theorem intext_other {sign : Bool} {w W : ℕ} (hq : q ≠ dst) (hq' : q ≠ tmp) :
    (run (exec shiftFlags) (generateRawIntext dst src sign w W tmp) s).regs q = s.regs q := by
  simp only [generateRawIntext]
  split_ifs <;> simp [exec, State.set_other, hq, hq']

end

/-- **The target does what the lowering expects of it.** -/
theorem derived_ok (shiftFlags : Flags) : (derived shiftFlags).Ok where
  materialize_self data size r s _ hw hsize := materialize_self shiftFlags s data size r hw hsize
  materialize_other data size r q s hq := by
    simp only [derived, materializeConstant]
    split_ifs <;> simp [exec, State.set_other, hq]
  intext_self {dst src tmp} sign {w W} s hw hlt hW _ htmp := by
    have hW' : W ≤ 64 := by omega
    cases sign with
    | false =>
      show ((run (exec shiftFlags) (generateRawIntext dst src false w W tmp) s).regs dst).setWidth W = _
      rw [intext_unsigned shiftFlags s hlt hW htmp, BitVec.setWidth_setWidth_of_le _ hW']
      rfl
    | true =>
      show ((run (exec shiftFlags) (generateRawIntext dst src true w W tmp) s).regs dst).setWidth W = _
      rw [intext_signed shiftFlags s hw hlt hW, BitVec.setWidth_setWidth_of_le _ hW', BitVec.setWidth_eq]
      rfl
  intext_other _ _ _ s hq hq' := intext_other shiftFlags s hq hq'

theorem users_ok (shiftFlags : Flags) : users.Ok (exec shiftFlags) jumps where
  set_self c r s := by
    simp only [users, run_cons, run_nil, exec, IsBit, jumps, State.set_self, id, BitVec.getLsbD_append]
    simp
  set_jump c r s := rfl
  setExt_self c r s := by
    simp only [users, run_cons, run_nil, exec, jumps, State.set_self, State.set_flags, id]
    cases c.holds s.flags <;> decide
  mask_self c r s := by
    simp only [users, run_cons, run_nil, exec, jumps, State.set_self, State.set_flags, id]
    cases c.holds s.flags <;> decide

/-! ### The flags of a comparison -/

/-- A test sets the flags of a comparison with zero. -/
theorem sub_zero_eq_logicFlags {w : ℕ} (x : BitVec w) : sub x 0 false = logicFlags x := by
  have hdiff : diff x 0#w false = x := by simp [diff]
  simp [sub, logicFlags, hdiff, signedDiff]

section
variable {shiftFlags : Flags} {A : Alloc} {c : Ctx Inst} {s : State} {l : Reg} {rhs : Part}

/-- **Up to 64 bits, the flags are those of one subtraction of machine words.** -/
theorem compareWord_flags {w : ℕ} {x y : BitVec (machineWidth w)}
    (hl : ((run (exec shiftFlags) c.code s).regs l).setWidth (machineWidth w) = x)
    (hr : (rhs.val (run (exec shiftFlags) c.code s)).setWidth (machineWidth w) = y) (hused : l ∈ c.used)
    (hused' : rhs.regs ⊆ c.used)
    (hfits : rhs.Fits (machineWidth w)) :
    (run (exec shiftFlags) (compareWord (derived shiftFlags) A w l rhs c).code s).flags = sub x y false := by
  by_cases hw : w ≤ 32
  · have h32 : machineWidth w = 32 := by simp [machineWidth, hw]
    revert x y
    rw [h32]
    rintro x y rfl rfl
    cases rhs with
    | const data size =>
      by_cases hzero : data.setWidth 32 = 0#32
      · simp [compareWord, hw, hzero, Ctx.asm, exec, Part.val, (sub_zero_eq_logicFlags _).symm]
      · simp [compareWord, hw, hzero, Ctx.asm, exec, Part.val]
    | reg r owned => simp [compareWord, hw, Ctx.asm, exec, Part.val]
  · have h64 : machineWidth w = 64 := by simp [machineWidth, hw]
    rw [h64] at hfits
    revert x y
    rw [h64]
    rintro x y rfl rfl
    cases rhs with
    | const data size =>
      by_cases hsmall : (data.setWidth 32).signExtend 64 = data
      · by_cases hzero : data = 0#64
        · simp [compareWord, hw, hzero, Ctx.asm, exec, Part.val, (sub_zero_eq_logicFlags _).symm]
        · simp [compareWord, hw, hsmall, hzero, Ctx.asm, exec, Part.val]
      · obtain ⟨hval, hkeep, -⟩ :=
          loadToReg_spec (derived_ok shiftFlags) (A := A) le_rfl hfits hused' (s := s)
        simp only [BitVec.setWidth_eq] at hval
        simp only [compareWord, hw, hsmall, if_false, Ctx.asm, run_append, run_cons, run_nil, exec,
          BitVec.setWidth_eq, Part.val]
        exact congrArg₂ (sub · · false) (hkeep l hused) hval
    | reg r owned => simp [compareWord, hw, Ctx.asm, exec, Part.val]

/-- A word is copied to a register of its own. -/
theorem reloadInto_word {p : Part} {v : BitVec 64} (h : Holds (exec shiftFlags) s c p v) (hfits : p.Fits 64) :
    let c' := (c.allocGp A).2.asm (reloadInto (derived shiftFlags) p (c.allocGp A).1)
    Keeps (exec shiftFlags) s c c' ∧ Holds (exec shiftFlags) s c' (.reg (c.allocGp A).1 true) v ∧
      (c.allocGp A).1 ∉ c.used := by
  have hfresh := A.fresh c.used
  have hne {q : Reg} (hq : q ∈ c.used) : q ≠ A.pick c.used := ne_of_mem_of_not_mem hq hfresh
  simp only [Ctx.allocGp, Ctx.asm, Keeps, Holds, run_append]
  cases p with
  | const data size =>
    refine ⟨⟨by simp, fun q hq => (derived_ok shiftFlags).materialize_other data size _ (hne hq)⟩,
      ⟨by simp [Part.regs], ?_⟩, hfresh⟩
    have hval :=
      (derived_ok shiftFlags).materialize_self data size (A.pick c.used)
        (run (exec shiftFlags) c.code s) le_rfl hfits
    rw [BitVec.setWidth_eq, BitVec.setWidth_eq] at hval
    exact hval.trans h.2
  | reg r owned =>
    refine ⟨⟨by simp, fun q hq => ?_⟩, ⟨by simp [Part.regs], ?_⟩, hfresh⟩
    · simp [reloadInto, exec, State.set_other, hne hq]
    · simpa [reloadInto, exec, Part.val] using h.2

theorem words_eq_iff {xh yh xl yl : BitVec 64} : xl ^^^ yl ||| (xh ^^^ yh) = 0#64 ↔ xh ++ xl = yh ++ yl := by
  rw [BitVec.or_eq_zero_iff, BitVec.xor_eq_zero_iff, BitVec.xor_eq_zero_iff, append_inj, and_comm]

theorem zero_words (xh yh xl yl : BitVec 64) : (logicFlags (xl ^^^ yl ||| (xh ^^^ yh))).zero = decide
    (xh ++ xl = yh ++ yl) :=
  decide_eq_decide.mpr words_eq_iff

theorem xor_or_flags (shiftFlags : Flags) (s : State) {res lo scratch hi : Reg} (hne : scratch ≠ res)
    (hne' : res ≠ hi) :
    (run (exec shiftFlags) [.xor64rr res lo, .xor64rr scratch hi, .or64rr res scratch] s).flags =
      logicFlags ((s.regs res ^^^ s.regs lo) ||| (s.regs scratch ^^^ s.regs hi)) := by
  simp [exec, State.set_other, hne, hne.symm, hne'.symm]

theorem cmp_sbb_flags (shiftFlags : Flags) (s : State) (llo rlo lhi rhi : Reg) :
    (run (exec shiftFlags) [.cmprr 64 llo rlo, .sbb64rr lhi rhi] s).flags =
      sub (s.regs lhi) (s.regs rhi) ((s.regs llo).ult (s.regs rlo)) := by
  simp [exec, borrow_sub]

theorem compareWide_swap (D : Derived Inst) (p : Predicate) (hp : p.mixed = true) (l r : Part × Part) :
    compareWide D A (Jump.ofPredicate p) l r c = compareWide D A (Jump.ofPredicate p.swap) r l c := by
  cases p <;> first | rfl | cases hp

/-- **On x86-64, the flags of a comparison of 128 bits say what the jump asks of them**,
where the operands are not swapped. -/
theorem compareWide_unmixed (p : Predicate) (hp : p.mixed = false) {ll lh rl rh : Part}
    {xl xh yl yh : BitVec 64}
    (hll : Holds (exec shiftFlags) s c ll xl) (hlh : Holds (exec shiftFlags) s c lh xh)
    (hrl : Holds (exec shiftFlags) s c rl yl) (hrh : Holds (exec shiftFlags) s c rh yh)
    (hfits : (ll.Fits 64 ∧ lh.Fits 64) ∧ rl.Fits 64 ∧ rh.Fits 64) :
    let r := compareWide (derived shiftFlags) A (Jump.ofPredicate p) (ll, lh) (rl, rh) c
    r.1.holds (run (exec shiftFlags) r.2.code s).flags = p.eval (xh ++ xl) (yh ++ yl) := by
  have hjump : ¬ (Jump.ofPredicate p = .ja ∨ Jump.ofPredicate p = .jbe ∨ Jump.ofPredicate p = .jle ∨
    Jump.ofPredicate p = .jg) := by
    cases p <;> first | decide | cases hp
  have hD := derived_ok shiftFlags
  -- the right operand gets its registers first
  obtain ⟨hk₁, hr₁⟩ := loadToReg_word hD A hrl hfits.2.1
  set c₁ := (c.loadToReg (derived shiftFlags) A rl).2
  set rlo := (c.loadToReg (derived shiftFlags) A rl).1
  obtain ⟨hk₂, hr₂⟩ := loadToReg_word hD A (hrh.keep hk₁) hfits.2.2
  set c₂ := (c₁.loadToReg (derived shiftFlags) A rh).2
  set rhi := (c₁.loadToReg (derived shiftFlags) A rh).1
  have hk := hk₁.trans hk₂
  simp only [compareWide, hjump, if_false]
  by_cases heq : p = .eq ∨ p = .ne
  · have hjump' : Jump.ofPredicate p = .je ∨ Jump.ofPredicate p = .jne := by
      rcases heq with rfl | rfl
      · exact .inl rfl
      · exact .inr rfl
    obtain ⟨hk₃, hr₃, hfresh₃⟩ := reloadInto_word (A := A) (hll.keep hk) hfits.1.1
    set c₃ := (c₂.allocGp A).2.asm (reloadInto (derived shiftFlags) ll (c₂.allocGp A).1)
    obtain ⟨hk₄, hr₄, hfresh₄⟩ := reloadInto_word (A := A) (hlh.keep (hk.trans hk₃)) hfits.1.2
    have hlo := hr₁.keep ((hk₂.trans hk₃).trans hk₄)
    have hhi := hr₂.keep (hk₃.trans hk₄)
    have hres := hr₃.keep hk₄
    set c₄ := (c₃.allocGp A).2.asm (reloadInto (derived shiftFlags) lh (c₃.allocGp A).1)
    have hflags :
      (run (exec shiftFlags) (c₄.asm [.xor64rr (c₂.allocGp A).1 rlo, .xor64rr (c₃.allocGp A).1 rhi,
        .or64rr (c₂.allocGp A).1 (c₃.allocGp A).1]).code s).flags =
          logicFlags ((xl ^^^ yl) ||| (xh ^^^ yh)) := by
      rw [Ctx.asm_code, run_append, xor_or_flags shiftFlags _ (ne_of_mem_of_not_mem hr₃.reg_mem hfresh₄).symm
        (ne_of_mem_of_not_mem hr₂.reg_mem hfresh₃).symm]
      exact congrArg logicFlags (congrArg₂ _ (congrArg₂ _ hres.2 hlo.2) (congrArg₂ _ hr₄.2 hhi.2))
    simp only [hjump', if_true, Jump.holds_ofPredicate]
    refine (congrArg p.reads hflags).trans ?_
    rcases heq with rfl | rfl
    · exact (zero_words xh yh xl yl).trans (beq_eq_decide ..).symm
    · exact congrArg (!·) ((zero_words xh yh xl yl).trans (beq_eq_decide ..).symm)
  · have hjump' : ¬ (Jump.ofPredicate p = .je ∨ Jump.ofPredicate p = .jne) := by
      cases p <;> first | decide | simp at heq
    obtain ⟨hk₃, hr₃⟩ := loadToReg_word hD A (hll.keep hk) hfits.1.1
    set c₃ := (c₂.loadToReg (derived shiftFlags) A ll).2
    set llo := (c₂.loadToReg (derived shiftFlags) A ll).1
    obtain ⟨hk₄, hr₄, -⟩ := reloadInto_word (A := A) (hlh.keep (hk.trans hk₃)) hfits.1.2
    have hlo := hr₁.keep ((hk₂.trans hk₃).trans hk₄)
    have hhi := hr₂.keep (hk₃.trans hk₄)
    have hleft := hr₃.keep hk₄
    set c₄ := (c₃.allocGp A).2.asm (reloadInto (derived shiftFlags) lh (c₃.allocGp A).1)
    have hflags :
      (run (exec shiftFlags) (c₄.asm [.cmprr 64 llo rlo, .sbb64rr (c₃.allocGp A).1 rhi]).code s).flags =
        sub xh yh (xl.ult yl) := by
      rw [Ctx.asm_code, run_append, cmp_sbb_flags]
      exact congr (congrArg₂ sub hr₄.2 hhi.2) (congrArg₂ BitVec.ult hleft.2 hlo.2)
    simp only [hjump', if_false, Jump.holds_ofPredicate]
    exact (congrArg p.reads hflags).trans (p.reads_append xh yh xl yl (by omega) hp (not_or.mp heq))

/-- **On x86-64, the flags of a comparison of 128 bits say what the jump asks of them.** -/
theorem compareWide_holds (p : Predicate) {ll lh rl rh : Part} {xl xh yl yh : BitVec 64}
    (hll : Holds (exec shiftFlags) s c ll xl) (hlh : Holds (exec shiftFlags) s c lh xh)
    (hrl : Holds (exec shiftFlags) s c rl yl) (hrh : Holds (exec shiftFlags) s c rh yh)
    (hfits : (ll.Fits 64 ∧ lh.Fits 64) ∧ rl.Fits 64 ∧ rh.Fits 64) :
    let r := compareWide (derived shiftFlags) A (Jump.ofPredicate p) (ll, lh) (rl, rh) c
    r.1.holds (run (exec shiftFlags) r.2.code s).flags = p.eval (xh ++ xl) (yh ++ yl) := by
  cases hp : p.mixed with
  | false => exact compareWide_unmixed p hp hll hlh hrl hrh hfits
  | true =>
    have h := compareWide_unmixed (A := A) p.swap (p.mixed_swap_eq hp) hrl hrh hll hlh hfits.symm
    rw [p.eval_swap] at h
    rw [compareWide_swap _ p hp]
    exact h

end

/-! ### The lowering -/

/-- **On x86-64, `compile_icmp` does what the comparison says.** -/
theorem compileIcmp_correct {B : Type} [DecidableEq B] (shiftFlags : Flags) (A : Alloc)
    (blocks : Blocks B) (cmp : Cmp B) (dst : Reg)
    (s : State) : (compileIcmp shiftFlags A blocks cmp dst).Correct (exec shiftFlags) jumps blocks cmp s := by
  obtain ⟨pred, width, width_ok, lhs, rhs, lhs_apart, rhs_apart, singleUse, next⟩ := cmp
  by_cases hwide : width = 128
  · subst hwide
    simp only [compileIcmp, if_true]
    rw [finish_correct_iff (users_ok shiftFlags)]
    obtain ⟨xl, xh, hx, hll, hlh, hfl⟩ :=
      operand_holds (D := derived shiftFlags) (s := s) lhs (lhs.regs ∪ rhs.regs) (by simp)
    obtain ⟨yl, yh, hy, hrl, hrh, hfr⟩ :=
      operand_holds (D := derived shiftFlags) (s := s) rhs (lhs.regs ∪ rhs.regs) (by simp)
    refine .inl ((compareWide_holds pred hll hlh hrl hrh ⟨hfl, hfr⟩).trans ?_)
    rw [hx, hy]
    rfl
  · simp only [compileIcmp, hwide, if_false, Cmp.regs]
    rw [finish_correct_iff (users_ok shiftFlags)]
    have hw : 0 < width ∧ width ≤ 64 := width_ok.resolve_right hwide
    have hready :
      Ready (⟨lhs.regs ∪ rhs.regs, []⟩ : Ctx Inst) s lhs.part0 rhs.part0 (lhs.value s) (rhs.value s) :=
      .ofOperands lhs rhs hw.2 subset_rfl
    have hspec :=
      prepare_spec (derived_ok shiftFlags) (A := A) (s := s) Jump.swap_ofPredicate pred hw hready
        lhs_apart rhs_apart
    generalize Ctx.prepare (derived shiftFlags) A Jump.swap (Jump.ofPredicate pred) pred.isSigned width
      lhs.part0 rhs.part0
      ⟨lhs.regs ∪ rhs.regs, []⟩ = prepared at hspec ⊢
    obtain ⟨jump, lhs', l, rhs', c⟩ := prepared
    obtain ⟨q, x, y, rfl, heval, hl, hr, hused, hused', hfits, -⟩ := hspec
    have hflags := compareWord_flags (A := A) hl hr hused hused' hfits
    have hpos : 0 < machineWidth width := by
      unfold machineWidth
      split_ifs <;> omega
    refine .inl ((congrArg (Jump.holds (Jump.ofPredicate q)) hflags).trans ?_)
    rw [Jump.holds_ofPredicate, Predicate.reads_sub _ _ _ hpos, heval]
    rfl

end Tpde.IcmpX64
