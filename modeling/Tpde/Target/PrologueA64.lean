import Tpde.Assembler.EhFrame

/-!
# The prologue of a function and its unwind information

`finish_func` of `CompilerA64` knows which callee-saved registers are used. It makes the
prologue that saves them, in pairs, and the call frame instructions for it. These
describe the prologue exactly if there is no register to save (`unwinds_iff`).
-/

namespace Tpde.Target.A64

open Tpde.Assembler Cfi Leb128

/-! ### The model -/

/-- `AsmReg::FP`, `AsmReg::LR` and `AsmReg::SP`; vector registers start at 32. -/
def fp : ℕ := 29
def lr : ℕ := 30
def sp : ℕ := 31

/-- `reg_bank`: the bank of vector registers is 1. -/
def regBank (reg : ℕ) : ℕ := reg / 32

/-- `create_bitmask`. -/
def createBitmask (regs : List ℕ) : BitVec 64 := regs.foldl (fun set reg => set ||| BitVec.twoPow 64 reg) 0

/-- `callee_saved_regs` of `CCAssignerAAPCS`: R19 to R28, and V8 to V15. -/
def calleeSavedRegs : BitVec 64 :=
  createBitmask [19, 20, 21, 22, 23, 24, 25, 26, 27, 28, 40, 41, 42, 43, 44, 45, 46, 47]

/-- `saved_regs`, as `BitSetIterator` goes over it. -/
def savedRegs (clobbered : BitVec 64) : List ℕ :=
  (List.range 64).filter fun reg => (clobbered &&& calleeSavedRegs).getLsbD reg

/-- `align_up`. -/
def alignUp (n align : ℕ) : ℕ := (n + align - 1) / align * align

/-- `stack.frame_size` when a function starts: the registers that can be saved have room. -/
def startFrameSize : ℕ := 16 + alignUp (10 * 8 + 8 * 8) 16

/-- `final_frame_size`. -/
def finalFrameSize (frameSize : ℕ) : ℕ :=
  let size := alignUp frameSize 16
  if size > 4095 then alignUp size 4096 else size

/-- The instructions of a prologue, by the names of their encoders. -/
inductive PrologueInst where
  | subxi (imm : ℕ)
  | stpx (reg reg' base off : ℕ)
  | stpd (reg reg' base off : ℕ)
  | strxu (reg base off : ℕ)
  | strdu (reg base off : ℕ)
  | movSpx (dst src : ℕ)
  deriving DecidableEq

/-- The dwarf numbers of the source. -/
def dwRegX0 : ℕ := 0
def dwRegV0 : ℕ := 64
def dwRegFp : ℕ := 29
def dwRegLr : ℕ := 30
def dwRegSp : ℕ := 31

section
variable (frameSize : ℕ) (stackReg : ℕ)

/-- The call frame instruction for a register. -/
def saveCfi (reg frameOff : ℕ) : List UInt8 :=
  let dwarfBase := if reg < 32 then dwRegV0 else dwRegX0
  let dwarfReg := dwarfBase + reg % 32
  let cfaOff := (frameSize - frameOff) / 8
  if UInt8.ofNat dwarfReg &&& dwarfCfiPrimaryOpcodeMask = 0 then ehWriteInst₂ dwCfaOffset dwarfReg cfaOff
  else ehWriteInst₂ dwCfaOffsetExtended dwarfReg cfaOff

/-- A store of one register. -/
def strInst (reg frameOff : ℕ) : PrologueInst :=
  if regBank reg = 0 then .strxu reg stackReg frameOff else .strdu reg stackReg frameOff

/-- A store of two registers. -/
def stpInst (lastReg reg frameOff : ℕ) : PrologueInst :=
  if regBank reg = 0 then .stpx lastReg reg stackReg frameOff else .stpd lastReg reg stackReg frameOff

/-- The loop over the saved registers, with the register that waits for another one: its stores and its
call frame instructions. -/
def saveLoop : Option ℕ → ℕ → List ℕ → List PrologueInst × List UInt8
  | none, _, [] => ([], [])
  | some lastReg, frameOff, [] => ([strInst stackReg lastReg frameOff], [])
  | some lastReg, frameOff, reg :: regs =>
    if regBank reg = regBank lastReg then
      let (insts, cfi) := saveLoop none (frameOff + 16) regs
      (stpInst stackReg lastReg reg frameOff :: insts, cfi)
    else
      let (insts, cfi) := saveLoop (some reg) (frameOff + 8) regs
      (strInst stackReg lastReg frameOff :: insts, cfi)
  | none, frameOff, reg :: regs =>
    let (insts, cfi) := saveLoop (some reg) frameOff regs
    (insts, saveCfi frameSize reg frameOff ++ cfi)

end

/-- The prologue, without the padding behind it. -/
def prologue (clobbered : BitVec 64) (frameSize : ℕ) (dynAlloca : Bool) : List PrologueInst :=
  let size := finalFrameSize frameSize
  [.subxi size, .stpx fp lr sp 0, .movSpx fp sp] ++
    (saveLoop size (if dynAlloca then fp else sp) none 16 (savedRegs clobbered)).1

/-- The call frame instructions of the function. The last advance is patched when the prologue is known. -/
def cfi (clobbered : BitVec 64) (frameSize : ℕ) (dynAlloca : Bool) : List UInt8 :=
  let size := finalFrameSize frameSize
  ehWriteInst dwCfaAdvanceLoc 1 ++ ehWriteInst dwCfaDefCfaOffset size ++ ehWriteInst dwCfaAdvanceLoc 2 ++
    ehWriteInst dwCfaDefCfaRegister dwRegFp ++ ehWriteInst₂ dwCfaOffset dwRegFp (size / 8) ++
    ehWriteInst₂ dwCfaOffset dwRegLr (size / 8 - 1) ++
    [dwCfaAdvanceLoc ||| UInt8.ofNat ((prologue clobbered frameSize dynAlloca).length - 3)] ++
    (saveLoop size (if dynAlloca then fp else sp) none 16 (savedRegs clobbered)).2

/-! ### What a prologue does -/

/-- The stack pointer, the frame pointer and the slots of registers, all as distances from the canonical
frame address. -/
structure Frame where
  sp : ℤ
  fp : ℤ
  slots : List (ℕ × ℤ)
  deriving DecidableEq

/-- The value of a base register. -/
def Frame.base (frame : Frame) (reg : ℕ) : ℤ := if reg = A64.fp then frame.fp else frame.sp

/-- An instruction of a prologue. A pair is stored in slots of eight bytes. -/
def PrologueInst.exec (frame : Frame) : PrologueInst → Frame
  | .subxi imm => { frame with sp := frame.sp - imm }
  | .stpx reg reg' base off | .stpd reg reg' base off =>
    { frame with slots := frame.slots ++ [(reg, frame.base base + off), (reg', frame.base base + off + 8)] }
  | .strxu reg base off | .strdu reg base off =>
    { frame with slots := frame.slots ++ [(reg, frame.base base + off)] }
  | .movSpx dst src =>
    if dst = A64.fp then { frame with fp := frame.base src } else { frame with sp := frame.base src }

/-- The frame behind the prologue: at the call, the stack pointer is the canonical frame address. -/
def frameAfter (insts : List PrologueInst) (callerFp : ℤ) : Frame :=
  insts.foldl PrologueInst.exec ⟨0, callerFp, []⟩

/-- The number of a register in the architecture's dwarf mapping. -/
def dwarfNumber (reg : ℕ) : ℕ := if reg < 32 then reg else 64 + (reg - 32)

/-- What the row for an address behind the prologue should say. -/
structure RowOk (frame : Frame) (row : Row) : Prop where
  cfaReg : row.cfaReg = dwarfNumber fp
  cfaOff : frame.fp + row.cfaOff = 0
  saved : ∀ x ∈ frame.slots, row.rule (dwarfNumber x.1) = some x.2
  unsaved : ∀ n, (∀ x ∈ frame.slots, dwarfNumber x.1 ≠ n) → row.rule n = none

/-- The data alignment factor, as it is read. -/
def dataAlign : ℤ := ((readSleb [targetInfoA64.cieDataAlignmentFactor]).map Prod.fst).getD 0

/-- The unwind information describes the prologue, for every address behind it, with any padding of the
entries. -/
def Unwinds (clobbered : BitVec 64) (frameSize : ℕ) (dynAlloca : Bool) : Prop :=
  ∀ (callerFp : ℤ) (pc pad pad' : ℕ), 4 * (prologue clobbered frameSize dynAlloca).length ≤ pc → ∃ row,
    unwind targetInfoA64.cieCodeAlignmentFactor.toNat dataAlign
        (targetInfoA64.cieInstrs ++ ehAlignFrame pad)
          (cfi clobbered frameSize dynAlloca ++ ehAlignFrame pad') pc = some row ∧
      RowOk (frameAfter (prologue clobbered frameSize dynAlloca) callerFp) row

/-- `finish_func` makes the frame, for which it asserts that an instruction has room for its size, and
the unwind information describes the prologue. -/
def Described (clobbered : BitVec 64) (frameSize : ℕ) (dynAlloca : Bool) : Prop :=
  finalFrameSize frameSize < 16 * 1024 * 1024 ∧ Unwinds clobbered frameSize dynAlloca

/-! ### The registers that are saved -/

theorem savedRegs_bounds {clobbered : BitVec 64} {reg : ℕ} (h : reg ∈ savedRegs clobbered) :
    19 ≤ reg ∧ reg < 29 ∨ 40 ≤ reg ∧ reg < 48 := by
  obtain ⟨hlt, hbit⟩ := List.mem_filter.mp h
  rw [BitVec.getLsbD_and, Bool.and_eq_true] at hbit
  have hall : ∀ reg < 64, calleeSavedRegs.getLsbD reg = true → 19 ≤ reg ∧ reg < 29 ∨ 40 ≤ reg ∧
    reg < 48 := by decide +kernel
  exact hall reg (List.mem_range.mp hlt) hbit.2

theorem length_savedRegs (clobbered : BitVec 64) : (savedRegs clobbered).length ≤ 18 := by
  have hsub :
    List.Sublist (savedRegs clobbered) ((List.range 64).filter fun reg => calleeSavedRegs.getLsbD reg) := by
    refine List.monotone_filter_right _ fun reg h => ?_
    rw [BitVec.getLsbD_and, Bool.and_eq_true] at h
    exact h.2
  exact hsub.length_le.trans (by decide +kernel)

theorem savedRegs_eq_nil_iff {clobbered : BitVec 64} : savedRegs clobbered = [] ↔
    clobbered &&& calleeSavedRegs = 0 := by
  rw [savedRegs, List.filter_eq_nil_iff]
  constructor
  · intro h
    refine BitVec.eq_of_getLsbD_eq fun i hi => ?_
    have hbit := h i (List.mem_range.mpr hi)
    rw [Bool.not_eq_true] at hbit
    rw [hbit]
    simp
  · intro h reg _
    rw [h]
    simp

theorem alignUp_ge {n align : ℕ} (h : 0 < align) : n ≤ alignUp n align := by
  have hdiv := Nat.div_add_mod (n + align - 1) align
  have hmod := Nat.mod_lt (n + align - 1) h
  rw [alignUp, Nat.mul_comm]
  omega

theorem finalFrameSize_ge (frameSize : ℕ) : frameSize ≤ finalFrameSize frameSize := by
  have h := alignUp_ge (n := frameSize) (show 0 < 16 by decide)
  have h' := alignUp_ge (n := alignUp frameSize 16) (show 0 < 4096 by decide)
  simp only [finalFrameSize]
  split <;> omega

theorem finalFrameSize_dvd (frameSize : ℕ) : 16 ∣ finalFrameSize frameSize := by
  simp only [finalFrameSize]
  split
  · exact Dvd.dvd.mul_left (by decide) _
  · exact Dvd.intro_left _ rfl

/-! ### The call frame instructions -/

/-- The number that the call frame instruction for a register has. -/
def cfiNumber (reg : ℕ) : ℕ := (if reg < 32 then dwRegV0 else dwRegX0) + reg % 32

theorem saveCfi_isInst {frameSize reg frameOff : ℕ} (h : reg < 64) :
    IsInst (.offset (cfiNumber reg) ((frameSize - frameOff) / 8)) (saveCfi frameSize reg frameOff) := by
  have hall : ∀ reg < 64, UInt8.ofNat (cfiNumber reg) &&& dwarfCfiPrimaryOpcodeMask = 0 →
    cfiNumber reg < 64 := by
    decide +kernel
  show IsInst _ (if UInt8.ofNat (cfiNumber reg) &&& dwarfCfiPrimaryOpcodeMask = 0 then
    ehWriteInst₂ dwCfaOffset (cfiNumber reg) _ else ehWriteInst₂ dwCfaOffsetExtended (cfiNumber reg) _)
  split
  · rename_i hmask
    exact isInst_offset (hall reg h hmask)
  · exact isInst_offsetExtended _ _

section
variable {frameSize stackReg : ℕ}

/-- The loop writes instructions with the numbers of some of its registers. -/
theorem saveLoop_isInsts : ∀ {regs : List ℕ} {lastReg : Option ℕ} {frameOff : ℕ}, (∀ reg ∈ regs, reg < 64) →
    ∃ is, IsInsts is (saveLoop frameSize stackReg lastReg frameOff regs).2 ∧
      ∀ i ∈ is, ∃ reg ∈ regs, ∃ n, i = .offset (cfiNumber reg) n
  | [], none, _, _ => ⟨[], .nil, nofun⟩
  | [], some _, _, _ => ⟨[], .nil, nofun⟩
  | reg :: regs, none, frameOff, h => by
    obtain ⟨is, his, hregs⟩ := @saveLoop_isInsts regs (some reg) frameOff fun r hr =>
      h r (List.mem_cons_of_mem _ hr)
    refine ⟨_ :: is, .cons (saveCfi_isInst (h reg List.mem_cons_self)) his, List.forall_mem_cons.mpr ⟨?_, ?_⟩⟩
    · exact ⟨reg, List.mem_cons_self, _, rfl⟩
    · intro i hi
      obtain ⟨r, hr, n, rfl⟩ := hregs i hi
      exact ⟨r, List.mem_cons_of_mem _ hr, n, rfl⟩
  | reg :: regs, some lastReg, frameOff, h => by
    have hregs : ∀ r ∈ regs, r < 64 := fun r hr => h r (List.mem_cons_of_mem _ hr)
    rw [saveLoop]
    split
    · obtain ⟨is, his, hi⟩ := @saveLoop_isInsts regs none (frameOff + 16) hregs
      refine ⟨is, his, fun i hmem => ?_⟩
      obtain ⟨r, hr, n, rfl⟩ := hi i hmem
      exact ⟨r, List.mem_cons_of_mem _ hr, n, rfl⟩
    · obtain ⟨is, his, hi⟩ := @saveLoop_isInsts regs (some reg) (frameOff + 8) hregs
      refine ⟨is, his, fun i hmem => ?_⟩
      obtain ⟨r, hr, n, rfl⟩ := hi i hmem
      exact ⟨r, List.mem_cons_of_mem _ hr, n, rfl⟩

/-- There is at most one store for a register. -/
theorem length_saveLoop : ∀ {regs : List ℕ} {lastReg : Option ℕ} {frameOff : ℕ},
    (saveLoop frameSize stackReg lastReg frameOff regs).1.length ≤ regs.length + lastReg.toList.length
  | [], none, _ => Nat.zero_le _
  | [], some _, _ => le_rfl
  | reg :: regs, none, frameOff => by
    have h := @length_saveLoop regs (some reg) frameOff
    simpa [saveLoop] using h
  | reg :: regs, some lastReg, frameOff => by
    have h := @length_saveLoop regs none (frameOff + 16)
    have h' := @length_saveLoop regs (some reg) (frameOff + 8)
    rw [saveLoop]
    split
    · simp only [List.length_cons, Option.toList_some, Option.toList_none, List.length_nil] at h ⊢
      omega
    · simp only [List.length_cons, Option.toList_some, List.length_nil] at h' ⊢
      omega

/-! ### The stores -/

/-- The saves leave the pointers alone, and the slots that there are. -/
theorem saveLoop_frame : ∀ {regs : List ℕ} {lastReg : Option ℕ} {frameOff : ℕ} {frame : Frame},
    ∃ slots, ((saveLoop frameSize stackReg lastReg frameOff regs).1.foldl PrologueInst.exec frame) =
        { frame with slots := frame.slots ++ slots } ∧
      ∀ reg, reg ∈ regs ∨ lastReg = some reg → ∃ off, (reg, off) ∈ slots
  | [], none, _, frame => ⟨[], by simp [saveLoop], by simp⟩
  | [], some lastReg, frameOff, frame => by
    refine ⟨[(lastReg, frame.base stackReg + frameOff)], ?_, ?_⟩
    · simp only [saveLoop, List.foldl_cons, List.foldl_nil, strInst]
      split <;> rfl
    · intro reg h
      obtain rfl : lastReg = reg := by simpa using h
      exact ⟨_, List.mem_cons_self⟩
  | reg :: regs, none, frameOff, frame => by
    obtain ⟨slots, hslots, hmem⟩ := @saveLoop_frame regs (some reg) frameOff frame
    refine ⟨slots, hslots, fun r hr => hmem r ?_⟩
    rcases hr with hr | hr
    · rcases List.mem_cons.mp hr with rfl | hr
      · exact .inr rfl
      · exact .inl hr
    · cases hr
  | reg :: regs, some lastReg, frameOff, frame => by
    rw [saveLoop]
    split
    · set frame' := (stpInst stackReg lastReg reg frameOff).exec frame with hframe'
      have hexec : frame' = { frame with slots := frame.slots ++ [(lastReg, frame.base stackReg + frameOff),
          (reg, frame.base stackReg + frameOff + 8)] } := by
        rw [hframe', stpInst]
        split <;> rfl
      obtain ⟨slots, hslots, hmem⟩ := @saveLoop_frame regs none (frameOff + 16) frame'
      refine ⟨[(lastReg, frame.base stackReg + frameOff), (reg, frame.base stackReg + frameOff + 8)] ++
        slots, ?_,
        fun r hr => ?_⟩
      · show List.foldl _ frame' _ = _
        rw [hslots, hexec]
        simp only [List.append_assoc]
      · rcases hr with hr | hr
        · rcases List.mem_cons.mp hr with rfl | hr
          · exact ⟨frame.base stackReg + frameOff + 8, by simp⟩
          · obtain ⟨off, hoff⟩ := hmem r (.inl hr)
            exact ⟨off, List.mem_append_right _ hoff⟩
        · obtain rfl := Option.some.inj hr
          exact ⟨frame.base stackReg + frameOff, by simp⟩
    · set frame' := (strInst stackReg lastReg frameOff).exec frame with hframe'
      have hexec :
        frame' = { frame with slots := frame.slots ++ [(lastReg, frame.base stackReg + frameOff)] } := by
        rw [hframe', strInst]
        split <;> rfl
      obtain ⟨slots, hslots, hmem⟩ := @saveLoop_frame regs (some reg) (frameOff + 8) frame'
      refine ⟨[(lastReg, frame.base stackReg + frameOff)] ++ slots, ?_, fun r hr => ?_⟩
      · show List.foldl _ frame' _ = _
        rw [hslots, hexec]
        simp only [List.append_assoc]
      · rcases hr with hr | hr
        · obtain ⟨off, hoff⟩ := hmem r (by
            rcases List.mem_cons.mp hr with rfl | hr
            · exact .inr rfl
            · exact .inl hr)
          exact ⟨off, List.mem_append_right _ hoff⟩
        · obtain rfl := Option.some.inj hr
          exact ⟨frame.base stackReg + frameOff, by simp⟩

end

/-! ### The unwind information -/

section
variable {clobbered : BitVec 64} {frameSize : ℕ} {dynAlloca : Bool}

/-- The instructions in front of those for the saved registers. -/
def fixedInsts (size count : ℕ) : List Cfi.Inst :=
  [.advanceLoc 1, .defCfaOffset size, .advanceLoc 2, .defCfaRegister dwRegFp, .offset dwRegFp (size / 8),
    .offset dwRegLr (size / 8 - 1), .advanceLoc (count - 3)]

theorem length_prologue : 3 ≤ (prologue clobbered frameSize dynAlloca).length ∧
    (prologue clobbered frameSize dynAlloca).length ≤ 21 := by
  have h :=
    @length_saveLoop (finalFrameSize frameSize) (if dynAlloca then fp else sp) (savedRegs clobbered) none 16
  have h' := length_savedRegs clobbered
  simp only [prologue, List.length_append, List.length_cons, List.length_nil, Option.toList_none] at h ⊢
  omega

/-- The call frame instructions: those for saved registers are behind the others. -/
theorem cfi_isInsts : ∃ is, IsInsts
      (fixedInsts (finalFrameSize frameSize) (prologue clobbered frameSize dynAlloca).length ++ is)
      (cfi clobbered frameSize dynAlloca) ∧
    (savedRegs clobbered = [] → is = []) ∧
    ∀ i ∈ is, ∃ reg ∈ savedRegs clobbered, ∃ n, i = .offset (cfiNumber reg) n := by
  obtain ⟨is, his, hregs⟩ := @saveLoop_isInsts (finalFrameSize frameSize) (if dynAlloca then fp else sp)
    (savedRegs clobbered) none 16 fun reg h => by
      have := savedRegs_bounds h
      omega
  have hlen := @length_prologue clobbered frameSize dynAlloca
  refine ⟨is, ?_, fun hnil => ?_, hregs⟩
  · have hfixed := ((((((isInst_ehWriteInst_advanceLoc (show 1 < 64 by decide)).insts.snoc
      (isInst_defCfaOffset (finalFrameSize frameSize))).snoc
      (isInst_ehWriteInst_advanceLoc (show 2 < 64 by decide))).snoc
      (isInst_defCfaRegister dwRegFp)).snoc
      (@isInst_offset dwRegFp (finalFrameSize frameSize / 8) (by decide))).snoc
      (@isInst_offset dwRegLr (finalFrameSize frameSize / 8 - 1) (by decide))).snoc
      (@isInst_advanceLoc ((prologue clobbered frameSize dynAlloca).length - 3) (by omega))
    exact hfixed.append his
  · cases is with
    | nil => rfl
    | cons i is =>
      obtain ⟨reg, hreg, -⟩ := hregs i List.mem_cons_self
      rw [hnil] at hreg
      cases hreg

/-- The row of the instructions in front of those for the saved registers. -/
def fixedRow (size : ℕ) : Row :=
  ⟨dwRegFp, size, [(dwRegLr, ((size / 8 - 1 : ℕ) : ℤ) * (-8)), (dwRegFp, ((size / 8 : ℕ) : ℤ) * (-8))]⟩

/-- **The row for an address behind the prologue**: it has rules for the frame pointer and the link register,
and rules with the numbers of `cfiNumber`. -/
theorem unwind_row : ∃ is : List Cfi.Inst, (savedRegs clobbered = [] → is = []) ∧
    (∀ i ∈ is, ∃ reg ∈ savedRegs clobbered, ∃ n, i = .offset (cfiNumber reg) n) ∧
    ∀ pc pad pad', 4 * (prologue clobbered frameSize dynAlloca).length ≤ pc →
      unwind targetInfoA64.cieCodeAlignmentFactor.toNat dataAlign
        (targetInfoA64.cieInstrs ++ ehAlignFrame pad)
          (cfi clobbered frameSize dynAlloca ++ ehAlignFrame pad') pc =
      some (is.foldl (fun row i => i.apply (-8) row) (fixedRow (finalFrameSize frameSize))) := by
  obtain ⟨is, his, hnil, hregs⟩ := @cfi_isInsts clobbered frameSize dynAlloca
  refine ⟨is, hnil, hregs, fun pc pad pad' hpc => ?_⟩
  have hlen := @length_prologue clobbered frameSize dynAlloca
  have hdelta : (is.map Inst.delta).sum = 0 := by
    rw [List.sum_eq_zero_iff]
    rintro d hd
    obtain ⟨i, hi, rfl⟩ := List.mem_map.mp hd
    obtain ⟨reg, -, n, rfl⟩ := hregs i hi
    rfl
  have hnops (k : ℕ) : ((List.replicate k Inst.nop).map Inst.delta).sum = 0 := by
    simp [Inst.delta]
  have hcie := (isInst_defCfa dwRegSp 0).insts.append (isInsts_nops ((8 - pad % 8) % 8))
  have hfde := his.append (isInsts_nops ((8 - pad' % 8) % 8))
  show ((run 4 (-8) 0 _ 0 (targetInfoA64.cieInstrs ++ ehAlignFrame pad) ⟨0, 0, []⟩).bind
    (run 4 (-8) pc _ 0 (cfi clobbered frameSize dynAlloca ++ ehAlignFrame pad'))) = _
  have hrow : run 4 (-8) 0 (targetInfoA64.cieInstrs ++ ehAlignFrame pad).length 0
    (targetInfoA64.cieInstrs ++ ehAlignFrame pad) ⟨0, 0, []⟩ =
      some ⟨dwRegSp, 0, []⟩ := by
    refine (run_insts hcie ?_ le_rfl).trans ?_
    · rw [List.map_append, List.sum_append, hnops]
      exact le_rfl
    · rw [List.foldl_append, foldl_nops]
      rfl
  rw [hrow, Option.bind_some]
  refine (run_insts hfde ?_ le_rfl).trans ?_
  · rw [List.map_append, List.sum_append, hnops, List.map_append, List.sum_append, hdelta]
    simp only [fixedInsts, List.map_cons, List.map_nil, List.sum_cons, List.sum_nil, Inst.delta]
    omega
  · rw [List.foldl_append, foldl_nops, List.foldl_append]
    rfl

/-- The saved registers are stored by the prologue. -/
theorem saved_stored {callerFp : ℤ} {reg : ℕ} (h : reg ∈ savedRegs clobbered) :
    ∃ off, (reg, off) ∈ (frameAfter (prologue clobbered frameSize dynAlloca) callerFp).slots := by
  obtain ⟨slots, hslots, hmem⟩ := @saveLoop_frame (finalFrameSize frameSize) (if dynAlloca then fp else sp)
    (savedRegs clobbered) none 16
    ([PrologueInst.subxi (finalFrameSize frameSize), .stpx fp lr sp 0, .movSpx fp sp].foldl
      PrologueInst.exec ⟨0, callerFp, []⟩)
  obtain ⟨off, hoff⟩ := hmem reg (.inl h)
  refine ⟨off, ?_⟩
  rw [frameAfter, prologue, List.foldl_append, hslots]
  exact List.mem_append_right _ hoff

/-- The numbers of rules, when they are added. -/
theorem rules_numbers {is : List Cfi.Inst} (h : ∀ i ∈ is, ∃ reg ∈ savedRegs clobbered, ∃ n,
    i = .offset (cfiNumber reg) n) :
    ∀ {row : Row} {x : ℕ × ℤ}, x ∈ (is.foldl (fun row i => i.apply (-8) row) row).rules →
      x ∈ row.rules ∨ ∃ reg ∈ savedRegs clobbered, x.1 = cfiNumber reg := by
  induction is with
  | nil => exact fun hx => .inl hx
  | cons i is ih =>
    intro row x hx
    obtain ⟨reg, hreg, n, rfl⟩ := h i List.mem_cons_self
    rcases ih (fun i hi => h i (List.mem_cons_of_mem _ hi)) hx with hx | hx
    · rcases List.mem_cons.mp hx with rfl | hx
      · exact .inr ⟨reg, hreg, rfl⟩
      · exact .inl hx
    · exact .inr hx

/-- The numbers of general registers are written for vector registers, and the other way. -/
theorem cfiNumber_ne {reg reg' : ℕ} (h : reg ∈ savedRegs clobbered) (h' : reg' ∈ savedRegs clobbered) :
    cfiNumber reg ≠ dwarfNumber reg' := by
  have hb := savedRegs_bounds h
  have hb' := savedRegs_bounds h'
  simp only [cfiNumber, dwarfNumber, dwRegV0, dwRegX0]
  split <;> split <;> omega

/-- No register that is saved has a rule. -/
theorem savedRegs_of_unwinds (h : Unwinds clobbered frameSize dynAlloca) : savedRegs clobbered = [] := by
  rw [List.eq_nil_iff_forall_not_mem]
  intro reg hreg
  obtain ⟨is, -, hregs, hrow⟩ := @unwind_row clobbered frameSize dynAlloca
  obtain ⟨row, hrow', hok⟩ := h 0 (4 * (prologue clobbered frameSize dynAlloca).length) 0 0 le_rfl
  obtain rfl := Option.some.inj ((hrow _ 0 0 le_rfl).symm.trans hrow')
  obtain ⟨off, hoff⟩ := @saved_stored clobbered frameSize dynAlloca 0 reg hreg
  have hrule := hok.saved _ hoff
  rw [Row.rule_eq_none] at hrule
  · cases hrule
  · intro x hx heq
    have hb := savedRegs_bounds hreg
    rcases rules_numbers hregs hx with hx | ⟨reg', hreg', hx⟩
    · simp only [fixedRow, List.mem_cons, List.not_mem_nil, or_false] at hx
      simp only [dwarfNumber] at heq
      rcases hx with rfl | rfl
      · simp only [dwRegLr] at heq
        split at heq <;> omega
      · simp only [dwRegFp] at heq
        split at heq <;> omega
    · exact cfiNumber_ne hreg' hreg (hx.symm.trans heq)

/-- **The unwind information describes the prologue** exactly if the frame is not too large and no
callee-saved register is used. -/
theorem unwinds_iff (h : startFrameSize ≤ frameSize) : Described clobbered frameSize dynAlloca ↔
    finalFrameSize frameSize < 16 * 1024 * 1024 ∧ clobbered &&& calleeSavedRegs = 0 := by
  rw [← savedRegs_eq_nil_iff]
  refine and_congr_right fun _ => ⟨savedRegs_of_unwinds, fun hnil callerFp pc pad pad' hpc => ?_⟩
  obtain ⟨is, his, -, hrow⟩ := @unwind_row clobbered frameSize dynAlloca
  obtain rfl := his hnil
  refine ⟨_, hrow pc pad pad' hpc, ?_⟩
  obtain ⟨k, hk⟩ := finalFrameSize_dvd frameSize
  have hge : 16 ≤ finalFrameSize frameSize :=
    ((show 16 ≤ startFrameSize by decide).trans h).trans (finalFrameSize_ge frameSize)
  have hframe : frameAfter (prologue clobbered frameSize dynAlloca) callerFp =
      ⟨-(finalFrameSize frameSize), -(finalFrameSize frameSize),
        [(fp, -(finalFrameSize frameSize)), (lr, -(finalFrameSize frameSize) + 8)]⟩ := by
    simp [frameAfter, prologue, hnil, saveLoop, PrologueInst.exec, Frame.base, fp, sp]
  have hfp : ((finalFrameSize frameSize / 8 : ℕ) : ℤ) * (-8) = -(finalFrameSize frameSize) := by omega
  have hlr : ((finalFrameSize frameSize / 8 - 1 : ℕ) : ℤ) * (-8) = -(finalFrameSize frameSize) + 8 := by omega
  rw [hframe, List.foldl_nil, fixedRow, hfp, hlr]
  refine ⟨rfl, neg_add_cancel _, ?_, fun n hn => ?_⟩
  · simp [Row.rule, dwarfNumber, dwRegFp, dwRegLr, fp, lr]
  · refine Row.rule_eq_none fun x hx => ?_
    simp only [List.forall_mem_cons] at hn
    rcases List.mem_cons.mp hx with rfl | hx
    · exact hn.2.1
    · rw [List.mem_singleton.mp hx]
      exact hn.1

/-- A function that uses no callee-saved register, with a dynamic alloca. -/
theorem unwinds_leaf : Described 0b111 200 true := (unwinds_iff (by decide)).mpr (by decide)

/-- A function that uses x19: its rule is written for the register with the number 83, which is v19. -/
theorem unwinds_x19 : ¬ Described (BitVec.twoPow 64 19) 160 false := by
  intro h
  have hnil := savedRegs_of_unwinds h.2
  revert hnil
  decide +kernel

end

end Tpde.Target.A64
