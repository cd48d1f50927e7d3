import Tpde.Llvm.IcmpX64

/-!
# Integer comparisons on AArch64

The instructions `compile_icmp` emits for AArch64. A comparison of 128 bits subtracts the
high words with the borrow of the low ones, as on x86-64, but the operands are never
swapped: `Jhi`, `Jls`, `Jgt` and `Jle` read the zero flag of the high word. The result is
wrong exactly where the first operand is greater by less than `2 ^ 64`
(`Icmp.compileIcmp_correct_iff`).
-/

namespace Tpde.IcmpA64

open SubFlags Icmp

/-- The jumps on flags that a comparison can give. -/
inductive Kind where
  | jeq | jne | jcs | jcc | jhi | jls | jge | jlt | jgt | jle
  deriving DecidableEq, Repr

namespace Kind

/-- `invert_jump`. -/
def invert : Kind → Kind
  | jeq => jne
  | jne => jeq
  | jcs => jcc
  | jcc => jcs
  | jhi => jls
  | jls => jhi
  | jge => jlt
  | jlt => jge
  | jgt => jle
  | jle => jgt

/-- `swap_jump`. -/
def swap : Kind → Kind
  | jeq => jeq
  | jne => jne
  | jcc => jhi
  | jcs => jls
  | jhi => jcc
  | jls => jcs
  | jge => jle
  | jlt => jgt
  | jgt => jlt
  | jle => jge

/-- The condition codes: the carry flag is set where there is no borrow. -/
def holds : Kind → Flags → Bool
  | jeq, f => f.zero
  | jne, f => !f.zero
  | jcs, f => !f.borrow
  | jcc, f => f.borrow
  | jhi, f => !f.borrow && !f.zero
  | jls, f => f.borrow || f.zero
  | jge, f => f.neg == f.overflow
  | jlt, f => f.neg != f.overflow
  | jgt, f => !f.zero && f.neg == f.overflow
  | jle, f => f.zero || f.neg != f.overflow

/-- The jump of a predicate. -/
def ofPredicate : Predicate → Kind
  | .eq => jeq
  | .ne => jne
  | .ugt => jhi
  | .uge => jcs
  | .ult => jcc
  | .ule => jls
  | .sgt => jgt
  | .sge => jge
  | .slt => jlt
  | .sle => jle

theorem holds_ofPredicate (p : Predicate) (f : Flags) : (ofPredicate p).holds f = p.reads f := by
  cases p <;> simp [ofPredicate, holds, Predicate.reads, Flags.less, bne]

theorem swap_ofPredicate (p : Predicate) : (ofPredicate p).swap = ofPredicate p.swap := by
  cases p <;> rfl

theorem holds_invert (k : Kind) (f : Flags) : k.invert.holds f = !k.holds f := by
  cases k <;> simp [invert, holds, bne]

end Kind

/-- A jump on flags, or on a register that is zero or not. -/
inductive Jump where
  | cond (kind : Kind)
  | cbz (reg : Reg) (is32 : Bool)
  | cbnz (reg : Reg) (is32 : Bool)
  deriving DecidableEq, Repr

/-- The instructions of a comparison, with the size of their operands in bits. -/
inductive Inst where
  | movzw (dst : Reg)
  | movConst (dst : Reg) (imm : BitVec 64)
  | mov (bits : ℕ) (dst src : Reg)
  | sbfx (bits : ℕ) (dst src : Reg) (width : ℕ)
  | ubfx (bits : ℕ) (dst src : Reg) (width : ℕ)
  | cmp (bits : ℕ) (a b : Reg)
  | cmpi (bits : ℕ) (a : Reg) (imm : BitVec 64)
  | ccmpEq (a b : Reg)
  | sbcsZr (a b : Reg)
  | csetw (dst : Reg) (cond : Kind)
  | csetmx (dst : Reg) (cond : Kind)
  deriving DecidableEq, Repr

/-- Runs an instruction. `CCMP` compares if the flags are equal and clears them all
otherwise. -/
def exec (i : Inst) (s : State) : State :=
  match i with
  | .movzw dst => s.set dst 0
  | .movConst dst imm => s.set dst imm
  | .mov bits dst src => s.set dst (((s.regs src).setWidth bits).setWidth 64)
  | .sbfx bits dst src width => s.set dst ((((s.regs src).setWidth width).signExtend bits).setWidth 64)
  | .ubfx bits dst src width => s.set dst ((((s.regs src).setWidth width).setWidth bits).setWidth 64)
  | .cmp bits a b => { s with flags := sub ((s.regs a).setWidth bits) ((s.regs b).setWidth bits) false }
  | .cmpi bits a imm => { s with flags := sub ((s.regs a).setWidth bits) (imm.setWidth bits) false }
  | .ccmpEq a b => { s with
    flags := if s.flags.zero then sub (s.regs a) (s.regs b) false else ⟨false, false, true, false⟩ }
  | .sbcsZr a b => { s with flags := sub (s.regs a) (s.regs b) s.flags.borrow }
  | .csetw dst cond => s.set dst ((BitVec.ofBool (cond.holds s.flags)).setWidth 64)
  | .csetmx dst cond => s.set dst ((BitVec.ofBool (cond.holds s.flags)).signExtend 64)

/-- What AArch64 supplies. -/
def derived : Derived Inst where
  exec := exec
  materializeConstant data _ dst := if data = 0 then [.movzw dst] else [.movConst dst data]
  generateRawIntext dst src sign fromBits toBits _ :=
    let bits := if toBits ≤ 32 then 32 else 64
    if sign then [.sbfx bits dst src fromBits] else [.ubfx bits dst src fromBits]

/-- `invert_jump`. -/
def Jump.invert : Jump → Jump
  | cond kind => cond kind.invert
  | cbz reg is32 => cbnz reg is32
  | cbnz reg is32 => cbz reg is32

/-- A register is zero. -/
def isZero (s : State) (reg : Reg) (is32 : Bool) : Bool := if is32 then (s.regs reg).setWidth 32 == 0
    else s.regs reg == 0

def Jump.holds (j : Jump) (s : State) : Bool :=
  match j with
  | cond kind => kind.holds s.flags
  | cbz reg is32 => isZero s reg is32
  | cbnz reg is32 => !isZero s reg is32

def jumps : Jumps Jump where
  invert := Jump.invert
  holds := Jump.holds
  holds_invert j s := by cases j <;> simp [Jump.invert, Jump.holds, Kind.holds_invert]

/-- `generate_raw_set` and `generate_raw_mask`. -/
def users : Users Inst Kind Jump where
  jump := Jump.cond
  set cc dst := [.csetw dst cc]
  setExt cc dst := [.csetw dst cc]
  mask cc dst := [.csetmx dst cc]

/-- `permanent_scratch_reg`, `x16`. -/
def permanentScratchReg : Reg := 16

section
variable (A : Alloc)

/-- The comparison of two operands of 128 bits. -/
def compareWide (jump : Kind) (lhs rhs : Part × Part) (c : Ctx Inst) : Ctx Inst :=
  let (lhsLo, c) := c.loadToReg derived A lhs.1
  let (lhsHi, c) := c.loadToReg derived A lhs.2
  let (rhsLo, c) := c.loadToReg derived A rhs.1
  let (rhsHi, c) := c.loadToReg derived A rhs.2
  c.asm (if jump = .jeq ∨ jump = .jne then [.cmp 64 lhsLo rhsLo, .ccmpEq lhsHi rhsHi]
    else [.cmp 64 lhsLo rhsLo, .sbcsZr lhsHi rhsHi])

/-- The comparison of a register with an operand of up to 64 bits. `encodes` says which
immediates a comparison can have. -/
def compareWord (encodes : ℕ → BitVec 64 → Bool) (w : ℕ) (l : Reg) (rhs : Part) (c : Ctx Inst) : Ctx Inst :=
  let bits := if w ≤ 32 then 32 else 64
  match rhs with
  | .const imm _ =>
    if encodes bits imm then c.asm [.cmpi bits l imm]
    else (c.asm (derived.materializeConstant imm 4 permanentScratchReg)).asm [.cmp bits l permanentScratchReg]
  | .reg r _ => c.asm [.cmp bits l r]

end

section
variable {B : Type} [DecidableEq B]

/-- A register of its own for the branch, which the moves to phis do not change. -/
def cbzReg (A : Alloc) (w : ℕ) (lhs : Part) (l : Reg) (c : Ctx Inst) : Reg × Ctx Inst :=
  if lhs.isConst || lhs.canSalvage then (l, c)
  else
    let (res, c) := c.allocGp A
    (res, c.asm [.mov (if w ≤ 32 then 32 else 64) res l])

/-- The comparison with zero of a fused branch is a `CBZ` or `CBNZ`. -/
def fuseCbz (blocks : Blocks B) (cmp : Cmp B) (A : Alloc) (jump : Kind) (lhs : Part) (l : Reg)
    (rhs : Part) (c : Ctx Inst) :
    Option (Compiled Inst Jump B) :=
  match cmp.fuseBr, rhs with
  | some (t, f), .const imm _ =>
    if imm = 0 ∧ cmp.singleUse ∧ (jump = .jeq ∨ jump = .jne) then
      let (reg, c) := cbzReg A cmp.width lhs l c
      let cbz := if jump = .jeq then Jump.cbz reg (cmp.width ≤ 32) else Jump.cbnz reg (cmp.width ≤ 32)
      some ⟨c.code, none, some (generateConditionalBranch jumps blocks cbz t f)⟩
    else none
  | _, _ => none

/-- `compile_icmp`: `dst` is the register that the result gets. -/
def compileIcmp (encodes : ℕ → BitVec 64 → Bool) (A : Alloc) (blocks : Blocks B) (cmp : Cmp B)
    (dst : Reg) : Compiled Inst Jump B :=
  let jump := Kind.ofPredicate cmp.pred
  let c : Ctx Inst := ⟨insert permanentScratchReg cmp.regs, []⟩
  if cmp.width = 128 then
    let c := compareWide A jump (cmp.lhs.part0, cmp.lhs.part1) (cmp.rhs.part0, cmp.rhs.part1) c
    finish jumps users blocks cmp dst c.code jump
  else
    let (jump, lhs, l, rhs, c) :=
      c.prepare derived A Kind.swap jump cmp.pred.isSigned cmp.width cmp.lhs.part0 cmp.rhs.part0
    match fuseCbz blocks cmp A jump lhs l rhs c with
    | some compiled => compiled
    | none => finish jumps users blocks cmp dst (compareWord encodes cmp.width l rhs c).code jump

end

/-! ### The instruction sequences -/

theorem derived_ok : derived.Ok where
  materialize_self data size r s _ hw _ := by
    simp only [derived]
    split_ifs with hzero
    · simp [exec, hzero]
    · simp [exec]
  materialize_other data size r q s hq := by
    simp only [derived]
    split_ifs <;> simp [exec, State.set_other, hq]
  intext_self {dst src tmp} sign {w W} s hw hlt hW _ _ := by
    have hW' : W ≤ 64 := by omega
    have hbits : (if W ≤ 32 then 32 else 64) = W := by split_ifs <;> omega
    cases sign with
    | false =>
      simp only [derived, hbits, Bool.false_eq_true, if_false, run_cons, run_nil, exec, State.set_self,
        Predicate.widen]
      rw [BitVec.setWidth_setWidth_of_le _ hW', BitVec.setWidth_eq]
    | true =>
      simp only [derived, hbits, if_true, run_cons, run_nil, exec, State.set_self, Predicate.widen]
      rw [BitVec.setWidth_setWidth_of_le _ hW', BitVec.setWidth_eq]
  intext_other {dst src tmp q} sign w W s hq _ := by
    cases sign <;> simp [derived, exec, State.set_other, hq]

theorem users_ok : users.Ok exec jumps where
  set_self c r s := by simp [users, exec, IsBit, jumps, Jump.holds]
  set_jump c r s := rfl
  setExt_self c r s := by simp [users, exec, jumps, Jump.holds]
  mask_self c r s := by simp [users, exec, jumps, Jump.holds]

/-! ### The flags of a comparison -/

section
variable {A : Alloc} {c : Ctx Inst} {s : State} {l : Reg} {rhs : Part}

/-- **Up to 64 bits, the flags are those of one subtraction of machine words.** -/
theorem compareWord_flags (encodes : ℕ → BitVec 64 → Bool) {w : ℕ} {x y : BitVec (machineWidth w)}
    (hl : ((run exec c.code s).regs l).setWidth (machineWidth w) = x)
    (hr : (rhs.val (run exec c.code s)).setWidth (machineWidth w) = y) (hscratch : l ≠ permanentScratchReg) :
    (run exec (compareWord encodes w l rhs c).code s).flags = sub x y false := by
  have hbits : (if w ≤ 32 then 32 else 64) = machineWidth w := rfl
  have hle : machineWidth w ≤ 64 := by
    unfold machineWidth
    split_ifs <;> omega
  subst hl hr
  simp only [compareWord, hbits]
  cases rhs with
  | const imm size =>
    have hD := derived_ok
    have hkeep := hD.materialize_other imm 4 (run exec c.code s) hscratch
    have hval := hD.materialize_self imm 8 permanentScratchReg (run exec c.code s) hle (by omega)
    by_cases henc : encodes (machineWidth w) imm = true
    · simp [henc, exec, Part.val]
    · simp only [henc, Bool.false_eq_true, if_false, Ctx.asm_code, run_append, run_cons, run_nil, exec,
        Part.val]
      exact congrArg₂ (sub · · false) (congrArg (BitVec.setWidth _) hkeep) hval
  | reg r owned => simp [exec, Part.val]

/-- The zero flag of a conditional comparison: both pairs of words are equal. -/
theorem zero_cmp_ccmp {t : State} {ll lh rl rh : Reg} {xl xh yl yh : BitVec 64} (hll : t.regs ll = xl)
    (hlh : t.regs lh = xh)
    (hrl : t.regs rl = yl) (hrh : t.regs rh = yh) :
    (run exec [.cmp 64 ll rl, .ccmpEq lh rh] t).flags.zero = decide (xh ++ xl = yh ++ yl) := by
  subst hll hlh hrl hrh
  simp only [run_cons, run_nil, exec, SubFlags.zero_sub, BitVec.setWidth_eq, append_inj]
  by_cases hlow : t.regs ll = t.regs rl
  · simp [hlow, SubFlags.zero_sub]
  · simp [hlow]

theorem cmp_sbcs_flags {t : State} {ll lh rl rh : Reg} {xl xh yl yh : BitVec 64} (hll : t.regs ll = xl)
    (hlh : t.regs lh = xh)
    (hrl : t.regs rl = yl) (hrh : t.regs rh = yh) :
    (run exec [.cmp 64 ll rl, .sbcsZr lh rh] t).flags = sub xh yh (xl.ult yl) := by
  subst hll hlh hrl hrh
  simp [exec, borrow_sub]

/-- **On AArch64, the jump reads the zero flag of the high words alone**, but for equality. -/
theorem compareWide_holds (p : Predicate) {ll lh rl rh : Part} {xl xh yl yh : BitVec 64}
    (hll : Holds exec s c ll xl) (hlh : Holds exec s c lh xh) (hrl : Holds exec s c rl yl)
    (hrh : Holds exec s c rh yh)
    (hfits : (ll.Fits 64 ∧ lh.Fits 64) ∧ rl.Fits 64 ∧ rh.Fits 64) :
    (Kind.ofPredicate p).holds
      (run exec (compareWide A (Kind.ofPredicate p) (ll, lh) (rl, rh) c).code s).flags =
      if p = .eq ∨ p = .ne then p.eval (xh ++ xl) (yh ++ yl) else p.reads (sub xh yh (xl.ult yl)) := by
  have hD := derived_ok
  obtain ⟨hk₁, hr₁⟩ := loadToReg_word hD A hll hfits.1.1
  set c₁ := (c.loadToReg derived A ll).2
  obtain ⟨hk₂, hr₂⟩ := loadToReg_word hD A (hlh.keep hk₁) hfits.1.2
  set c₂ := (c₁.loadToReg derived A lh).2
  obtain ⟨hk₃, hr₃⟩ := loadToReg_word hD A (hrl.keep (hk₁.trans hk₂)) hfits.2.1
  set c₃ := (c₂.loadToReg derived A rl).2
  obtain ⟨hk₄, hr₄⟩ := loadToReg_word hD A (hrh.keep ((hk₁.trans hk₂).trans hk₃)) hfits.2.2
  set c₄ := (c₃.loadToReg derived A rh).2
  have hlo := (hr₁.keep ((hk₂.trans hk₃).trans hk₄)).2
  have hhi := (hr₂.keep (hk₃.trans hk₄)).2
  have hrlo := (hr₃.keep hk₄).2
  have hrhi := hr₄.2
  rw [Kind.holds_ofPredicate]
  by_cases heq : p = .eq ∨ p = .ne
  · have hjump : Kind.ofPredicate p = .jeq ∨ Kind.ofPredicate p = .jne := by
      rcases heq with rfl | rfl
      · exact .inl rfl
      · exact .inr rfl
    simp only [compareWide, hjump, heq, if_true, Ctx.asm_code, run_append]
    have hzero := zero_cmp_ccmp hlo hhi hrlo hrhi
    rcases heq with rfl | rfl
    · exact hzero.trans (beq_eq_decide ..).symm
    · exact congrArg (!·) (hzero.trans (beq_eq_decide ..).symm)
  · have hjump : ¬ (Kind.ofPredicate p = .jeq ∨ Kind.ofPredicate p = .jne) := by
      cases p <;> first | decide | simp at heq
    simp only [compareWide, hjump, heq, if_false, Ctx.asm_code, run_append]
    exact congrArg p.reads (cmp_sbcs_flags hlo hhi hrlo hrhi)

end

/-! ### The lowering -/

section
variable {B : Type} [DecidableEq B]

/-- The comparisons that AArch64 gets wrong: of 128 bits, for a predicate that needs the
zero flag together with others, where the first operand is greater by less than `2 ^ 64`,
and something depends on the result. -/
def Misread (cmp : Cmp B) (s : State) : Prop :=
  cmp.width = 128 ∧ cmp.pred.mixed = true ∧ cmp.pred.CloseAbove 64 (cmp.lhs.value s) (cmp.rhs.value s) ∧
    ¬ cmp.Idle

theorem isZero_eq (t : State) (r : Reg) (w : ℕ) :
    isZero t r (w ≤ 32) = decide ((t.regs r).setWidth (machineWidth w) = 0) := by
  by_cases hw : w ≤ 32
  · rw [show machineWidth w = 32 by simp [machineWidth, hw]]
    simp [isZero, hw, beq_eq_decide]
  · rw [show machineWidth w = 64 by simp [machineWidth, hw]]
    simp [isZero, hw, beq_eq_decide]

theorem cbzReg_val (A : Alloc) {w : ℕ} (lhs : Part) {l : Reg} {c : Ctx Inst} {s : State}
    {x : BitVec (machineWidth w)}
    (hl : ((run exec c.code s).regs l).setWidth (machineWidth w) = x) :
    ((run exec (cbzReg A w lhs l c).2.code s).regs (cbzReg A w lhs l c).1).setWidth (machineWidth w) = x := by
  have hle : machineWidth w ≤ 64 := by
    unfold machineWidth
    split_ifs <;> omega
  have hbits : (if w ≤ 32 then 32 else 64) = machineWidth w := rfl
  unfold cbzReg
  rw [hbits]
  split
  · exact hl
  · simp only [Ctx.allocGp, Ctx.asm_code, run_append, run_cons, run_nil, exec, State.set_self]
    rw [BitVec.setWidth_setWidth_of_le _ hle, BitVec.setWidth_eq]
    exact hl

/-- The branch on a register compares it with zero. -/
theorem fuseCbz_correct {blocks : Blocks B} {cmp : Cmp B} {A : Alloc} {lhs rhs : Part} {l : Reg}
    {c : Ctx Inst} {s : State}
    {q : Predicate} {x y : BitVec (machineWidth cmp.width)} {compiled : Compiled Inst Jump B}
    (hl : ((run exec c.code s).regs l).setWidth (machineWidth cmp.width) = x)
    (hr : (rhs.val (run exec c.code s)).setWidth (machineWidth cmp.width) = y)
    (heval : q.eval x y = cmp.result s)
    (h : fuseCbz blocks cmp A (Kind.ofPredicate q) lhs l rhs c = some compiled) :
      compiled.Correct exec jumps blocks cmp s := by
  unfold fuseCbz at h
  split at h
  next t f imm size hbr =>
    split at h
    next hcond =>
      obtain ⟨himm, huse, hjump⟩ := hcond
      have hy : y = 0 := by
        rw [← hr, himm]
        simp [Part.val]
      have hreg := cbzReg_val A lhs hl
      generalize cbzReg A cmp.width lhs l c = r at h hreg
      obtain ⟨reg, c'⟩ := r
      cases h
      simp only [Compiled.Correct, hbr, huse, Option.some.injEq, exists_eq_left', runBranch_conditional,
        target_eq_iff,
        Bool.true_eq_false, false_imp_iff, and_true]
      refine .inl ?_
      rw [← heval, hy]
      rcases hjump with hjump | hjump
      · obtain rfl : q = .eq := by cases q <;> first | rfl | cases hjump
        simp [jumps, Jump.holds, hjump, isZero_eq, hreg, Predicate.eval, beq_eq_decide]
      · obtain rfl : q = .ne := by cases q <;> first | rfl | cases hjump
        simp [jumps, Jump.holds, hjump, isZero_eq, hreg, Predicate.eval, bne, beq_eq_decide]
    next => cases h
  next => cases h

/-- **On AArch64, `compile_icmp` does what the comparison says, but for the comparisons it
misreads.** -/
theorem compileIcmp_correct_a64_iff (encodes : ℕ → BitVec 64 → Bool) (A : Alloc) (blocks : Blocks B)
    (cmp : Cmp B) (dst : Reg) (s : State)
    (hscratch : permanentScratchReg ∉ cmp.regs) :
    (compileIcmp encodes A blocks cmp dst).Correct exec jumps blocks cmp s ↔ ¬ Misread cmp s := by
  obtain ⟨pred, width, width_ok, lhs, rhs, lhs_apart, rhs_apart, singleUse, next⟩ := cmp
  by_cases hwide : width = 128
  · subst hwide
    simp only [compileIcmp, if_true]
    rw [finish_correct_iff users_ok]
    obtain ⟨xl, xh, hx, hll, hlh, hfl⟩ :=
      operand_holds (D := derived) (s := s) lhs (insert permanentScratchReg (lhs.regs ∪ rhs.regs))
        (Finset.subset_union_left.trans (Finset.subset_insert ..))
    obtain ⟨yl, yh, hy, hrl, hrh, hfr⟩ :=
      operand_holds (D := derived) (s := s) rhs (insert permanentScratchReg (lhs.regs ∪ rhs.regs))
        (Finset.subset_union_right.trans (Finset.subset_insert ..))
    have hholds := compareWide_holds (A := A) pred hll hlh hrl hrh ⟨hfl, hfr⟩
    cases hmixed : pred.mixed with
    | true =>
      have heq : ¬ (pred = .eq ∨ pred = .ne) := by
        rintro (rfl | rfl) <;> cases hmixed
      have hiff := Predicate.reads_append_mixed xh yh xl yl pred (by omega) hmixed
      rw [if_neg heq] at hholds
      rw [hx, hy, ← hholds] at hiff
      simp only [Misread, hmixed, true_and, not_and, not_not]
      refine (or_congr_left hiff).trans ⟨fun h hclose => h.resolve_left (absurd hclose ·), fun h => ?_⟩
      by_cases hclose : pred.CloseAbove 64 (lhs.value s) (rhs.value s)
      · exact .inr (h hclose)
      · exact .inl hclose
    | false =>
      refine iff_of_true (.inl (hholds.trans ?_)) fun h => absurd (hmixed.symm.trans h.2.1) (by decide)
      split_ifs with heq
      · rw [hx, hy]
        rfl
      · rw [pred.reads_append _ _ _ _ (by omega) hmixed (not_or.mp heq), hx, hy]
        rfl
  · simp only [compileIcmp, hwide, if_false, Cmp.regs]
    have hw : 0 < width ∧ width ≤ 64 := width_ok.resolve_right hwide
    have hready : Ready (⟨insert permanentScratchReg (lhs.regs ∪ rhs.regs), []⟩ : Ctx Inst) s lhs.part0
      rhs.part0 (lhs.value s) (rhs.value s) :=
      .ofOperands lhs rhs hw.2 (Finset.subset_insert ..)
    have hspec :=
      prepare_spec derived_ok (A := A) (s := s) Kind.swap_ofPredicate pred hw hready lhs_apart rhs_apart
    generalize Ctx.prepare derived A Kind.swap (Kind.ofPredicate pred) pred.isSigned width lhs.part0 rhs.part0
      ⟨insert permanentScratchReg (lhs.regs ∪ rhs.regs), []⟩ = prepared at hspec ⊢
    obtain ⟨jump, lhs', l, rhs', c⟩ := prepared
    obtain ⟨q, x, y, rfl, heval, hl, hr, -, -, -, hreg⟩ := hspec
    refine iff_of_true ?_ fun h => hwide h.1
    split
    next compiled hcbz => exact fuseCbz_correct hl hr heval hcbz
    next =>
      have hne : l ≠ permanentScratchReg := by
        rintro rfl
        exact hscratch (Finset.union_subset_union Finset.subset_union_left Finset.subset_union_left
          (hreg (Finset.mem_insert_self ..)))
      have hpos : 0 < machineWidth width := by
        unfold machineWidth
        split_ifs <;> omega
      rw [finish_correct_iff users_ok]
      refine .inl
        ((congrArg (Kind.holds (Kind.ofPredicate q)) (compareWord_flags encodes hl hr hne)).trans ?_)
      rw [Kind.holds_ofPredicate, Predicate.reads_sub _ _ _ hpos, heval]
      rfl

end

end Tpde.IcmpA64

namespace Tpde.Icmp

open SubFlags

/-- **`compile_icmp` does what the comparison says on x86-64, and on AArch64 but for the
comparisons of 128 bits that it misreads.** -/
theorem compileIcmp_correct_iff {B : Type} [DecidableEq B] (encodes : ℕ → BitVec 64 → Bool)
    (shiftFlags : Flags) (A : Alloc)
    (blocks : Blocks B) (cmp : Cmp B) (dst : Reg) (s : State)
    (hscratch : IcmpA64.permanentScratchReg ∉ cmp.regs) :
    (IcmpX64.compileIcmp shiftFlags A blocks cmp dst).Correct (IcmpX64.exec shiftFlags) IcmpX64.jumps
      blocks cmp s ∧
      ((IcmpA64.compileIcmp encodes A blocks cmp dst).Correct IcmpA64.exec IcmpA64.jumps blocks cmp s ↔
        ¬ IcmpA64.Misread cmp s) :=
  ⟨IcmpX64.compileIcmp_correct shiftFlags A blocks cmp dst s,
    IcmpA64.compileIcmp_correct_a64_iff encodes A blocks cmp dst s hscratch⟩

/-- Hands out the register after the highest one in use. -/
def ascending : Alloc where
  pick used := used.sup id + 1
  fresh used h := by
    have hle := Finset.le_sup (f := id) h
    exact absurd hle (Nat.not_succ_le_self _)

/-- Two blocks without phis. -/
def twoBlocks : Blocks Bool where
  next := none
  hasPhis _ := false
  phiMoves _ s := s
  phiMoves_eq _ _ _ := rfl

/-- `icmp ugt i128 %x, %y` with a branch on it. -/
def ugtWide : Cmp Bool where
  pred := .ugt
  width := 128
  width_ok := .inr rfl
  lhs := .val 0 1 false
  rhs := .val 2 3 false
  lhs_apart h := by cases h
  rhs_apart h := by cases h
  singleUse := true
  next := .condBr true false

/-- `%x` is `5` and `%y` is `3`. -/
def fiveThree : State where
  regs r := if r = 0 then 5 else if r = 2 then 3 else 0
  flags := ⟨false, false, false, false⟩

/-- On x86-64 the branch on `5 > 3` is right, on AArch64 it is not. -/
theorem compileIcmp_fiveThree :
    (IcmpX64.compileIcmp ⟨false, false, false, false⟩ ascending twoBlocks ugtWide 0).Correct
        (IcmpX64.exec ⟨false, false, false, false⟩) IcmpX64.jumps twoBlocks ugtWide fiveThree ∧
      ¬ (IcmpA64.compileIcmp (fun _ _ => false) ascending twoBlocks ugtWide 0).Correct IcmpA64.exec
        IcmpA64.jumps twoBlocks ugtWide
        fiveThree := by
  have h := compileIcmp_correct_iff (fun _ _ => false) ⟨false, false, false, false⟩ ascending twoBlocks
    ugtWide 0 fiveThree (by decide)
  refine ⟨h.1, fun hc => h.2.mp hc ⟨rfl, rfl, ⟨by decide +kernel, by decide +kernel⟩, ?_⟩⟩
  rintro ⟨-, t, ht⟩
  cases ht

/-- On AArch64, the branch on `5 > 3` reaches the block of `5 ≤ 3`. -/
theorem compileIcmp_a64_fiveThree :
    ¬ (IcmpA64.compileIcmp (fun _ _ => false) ascending twoBlocks ugtWide 0).Correct IcmpA64.exec
      IcmpA64.jumps twoBlocks ugtWide
      fiveThree := by
  rintro ⟨⟨br, hbr, hrun⟩, -⟩
  cases hbr
  have hblock := congrArg (Option.map (·.1)) hrun
  revert hblock
  decide +kernel

end Tpde.Icmp
