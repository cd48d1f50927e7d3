import Tpde.Assembler.FixupsA64
import Tpde.Library.SaveArea
import Tpde.Target.VaStart

/-!
# Prologues and epilogues on AArch64

While a function is written its prologue and its epilogues are room in the text: the registers
to save and the size of the frame are not known before its end. `finish_func` writes the
prologue to the end of its room, writes one epilogue and copies it to the other returns. The
labels are resolved after that.
-/

namespace Tpde.Target.A64

open Tpde.Assembler SaveArea FunctionWriterA64

/-! ### The model -/

/-- The instructions of prologues and epilogues. -/
inductive FrameInst where
  | save (i : PrologueInst)
  | ldpx (reg reg' base off : ℕ)
  | ldpd (reg reg' base off : ℕ)
  | ldrxu (reg base off : ℕ)
  | ldrdu (reg base off : ℕ)
  | addxi (dst src imm : ℕ)
  | ret (reg : ℕ)
  | nop
  deriving DecidableEq

/-- What is not a branch in the text of a function. -/
inductive TextOp (Body : Type) where
  | frame (i : FrameInst)
  | body (o : Body)

section
variable (stackReg : ℕ)

/-- A load of one register. -/
def ldrInst (reg frameOff : ℕ) : FrameInst :=
  if regBank reg = 0 then .ldrxu reg stackReg frameOff else .ldrdu reg stackReg frameOff

/-- A load of two registers. -/
def ldpInst (lastReg reg frameOff : ℕ) : FrameInst :=
  if regBank reg = 0 then .ldpx lastReg reg stackReg frameOff else .ldpd lastReg reg stackReg frameOff

/-- The loop over the saved registers in an epilogue. -/
def restoreLoop : Option ℕ → ℕ → List ℕ → List FrameInst
  | none, _, [] => []
  | some lastReg, frameOff, [] => [ldrInst stackReg lastReg frameOff]
  | some lastReg, frameOff, reg :: regs =>
    if regBank reg = regBank lastReg then
      ldpInst stackReg lastReg reg frameOff :: restoreLoop none (frameOff + 16) regs
    else ldrInst stackReg lastReg frameOff :: restoreLoop (some reg) (frameOff + 8) regs
  | none, frameOff, reg :: regs => restoreLoop (some reg) frameOff regs

end

/-- The epilogue. -/
def epilogue (clobbered : BitVec 64) (frameSize : ℕ) (dynAlloca : Bool) : List FrameInst :=
  (if dynAlloca then [.save (.movSpx sp fp)] else [.ldpx fp lr sp 0]) ++
    restoreLoop (if dynAlloca then fp else sp) none 16 (savedRegs clobbered) ++
    (if dynAlloca then [.ldpx fp lr sp 0] else []) ++ [.addxi sp sp (finalFrameSize frameSize), .ret lr]

/-- A function that is being compiled: its text, the room for its prologue and its epilogues, and the
instruction that gets the frame size. -/
structure Func (Body : Type) where
  textWriter : FunctionWriterA64 (TextOp Body)
  funcStartOff : ℕ
  funcPrologueAlloc : ℕ
  funcEpilogueAlloc : ℕ
  funcRetOffs : List ℕ
  funcArgStackAdd : Option (ℕ × ℕ)

variable {Body : Type}

/-- `cur_ptr() += size`. -/
def skipText (w : FunctionWriterA64 (TextOp Body)) (size : ℕ) : FunctionWriterA64 (TextOp Body) :=
  { w with offset := w.offset + size }

/-- `start_func`: the text is aligned to 16 bytes. -/
def startFunc (w : FunctionWriterA64 (TextOp Body)) : Option (FunctionWriterA64 (TextOp Body)) := do
  let w ← w.ensureSpace 16
  some { w with code := writeAt w.code w.offset (List.replicate 4 (.data 0)), offset := alignUp w.offset 16 }

/-- The bytes for the stores of all registers that may be saved. -/
def regSaveSize : ℕ :=
  4 *
    ((popcount (calleeSavedRegs &&& bankRegs 0) + 1) / 2 +
    (popcount (calleeSavedRegs &&& bankRegs 1) + 1) / 2)

/-- `gen_func_prolog_and_args`, before the arguments. -/
def genFuncProlog (w : FunctionWriterA64 (TextOp Body)) (dynAlloca : Bool) : Option (Func Body) := do
  let w' ← w.ensureSpace (regSaveSize + 12)
  some {
    textWriter := skipText w' (regSaveSize + 12)
    funcStartOff := w.offset
    funcPrologueAlloc := regSaveSize + 12
    funcEpilogueAlloc := regSaveSize + 12 + if dynAlloca then 4 else 0
    funcRetOffs := []
    funcArgStackAdd := none }

/-- `gen_func_epilog`. -/
def Func.genFuncEpilog (f : Func Body) : Option (Func Body) := do
  let w ← f.textWriter.ensureSpace f.funcEpilogueAlloc
  some { f with
    textWriter := skipText w f.funcEpilogueAlloc, funcRetOffs := f.funcRetOffs ++ [f.textWriter.offset] }

/-- The first argument on the stack needs the stack pointer of the caller. -/
def Func.argStackAdd (f : Func Body) (reg : ℕ) : Option (Func Body) := do
  let w ← f.textWriter.ensureSpace 8
  if f.funcArgStackAdd = none then
    some { f with
      textWriter := ← w.writeUnchecked (.op (.frame (.addxi reg sp 0))), funcArgStackAdd :=
        some (w.offset, reg) }
  else some { f with textWriter := w }

/-- A function is begun, at `w`. -/
def beginFunc (w : FunctionWriterA64 (TextOp Body)) (expectedSize : ℕ) (dynAlloca : Bool) :
    Option (Func Body) := do
  let w ← w.beginFunc expectedSize
  let w ← startFunc w
  genFuncProlog w dynAlloca

/-- What is called between the prologue and the end of a function. -/
inductive FuncCall (Body : Type) where
  | text (call : Call (TextOp Body))
  | argStackAdd (reg : ℕ)
  | genFuncEpilog

def FuncCall.exec (f : Func Body) : FuncCall Body → Option (Func Body)
  | text call => do some { f with textWriter := ← call.exec f.textWriter }
  | argStackAdd reg => f.argStackAdd reg
  | genFuncEpilog => f.genFuncEpilog

/-- The words of frame instructions. -/
def frameWords (insts : List FrameInst) : List (Branches.Inst (TextOp Body)) :=
  insts.map fun i => .op (.frame i)

/-- `memset` with zero. -/
def zeroWords (size : ℕ) : List (Branches.Inst (TextOp Body)) := List.replicate (size / 4) (.data 0)

def readAt (code : ℕ → Branches.Inst (TextOp Body)) (off count : ℕ) : List (Branches.Inst (TextOp Body)) :=
  (List.range count).map fun i => code (off + 4 * i)

/-- The prologue, with instructions that do nothing so that the function starts at a multiple of 16. -/
def paddedPrologue (alloc : ℕ) (insts : List PrologueInst) : List FrameInst :=
  insts.map .save ++ List.replicate ((alloc / 4 - insts.length) % 4) .nop

/-- The part of `finish_func` that writes the prologue. -/
def Func.finishPrologue (f : Func Body) (insts : List PrologueInst) : Option (Func Body) :=
  if 4 * insts.length ≤ f.funcPrologueAlloc then
    let padded := paddedPrologue f.funcPrologueAlloc insts
    let skip := (f.funcPrologueAlloc - 4 * padded.length) / 16 * 16
    let code := writeAt f.textWriter.code f.funcStartOff (zeroWords skip)
    some { f with
      textWriter := { f.textWriter with code := writeAt code (f.funcStartOff + skip) (frameWords padded) }
      funcStartOff := f.funcStartOff + skip }
  else none

/-- The part that writes the frame size for the arguments on the stack. -/
def Func.finishArgStackAdd (f : Func Body) (size : ℕ) : Func Body :=
  match f.funcArgStackAdd with
  | none => f
  | some (off, reg) => { f with textWriter := { f.textWriter with
    code := writeAt f.textWriter.code off (frameWords [.addxi reg sp size]) } }

/-- The part that writes the epilogues, and cuts off what the last one does not need. -/
def Func.finishEpilogues (f : Func Body) (insts : List FrameInst) : Option (Func Body) :=
  match f.funcRetOffs with
  | [] => some f
  | first :: rest =>
    if 4 * insts.length ≤ f.funcEpilogueAlloc then
      let code :=
        writeAt f.textWriter.code
          first (frameWords insts ++ zeroWords (f.funcEpilogueAlloc - 4 * insts.length))
      let code :=
        rest.foldl (fun code off => writeAt code off (readAt code first (f.funcEpilogueAlloc / 4))) code
      let atEnd := (first :: rest).getLast? = some (f.textWriter.offset - f.funcEpilogueAlloc)
      some { f with
        textWriter := { f.textWriter with
          code := code
          offset := f.textWriter.offset - if atEnd then f.funcEpilogueAlloc - 4 * insts.length else 0 } }
    else none

/-- `finish_func`, as far as it writes text. -/
def Func.finishFunc (f : Func Body) (clobbered : BitVec 64) (frameSize : ℕ) (dynAlloca : Bool) :
    Option (Func Body) :=
  if finalFrameSize frameSize < 16 * 1024 * 1024 then do
    let f ← f.finishPrologue (prologue clobbered frameSize dynAlloca)
    (f.finishArgStackAdd (finalFrameSize frameSize)).finishEpilogues (epilogue clobbered frameSize dynAlloca)
  else none

/-! ### What the instructions do -/

def PrologueInst.run (m : Machine) : PrologueInst → Machine
  | .subxi imm => m.setReg sp (m.reg sp - BitVec.ofNat 64 imm)
  | .stpx reg reg' base off | .stpd reg reg' base off =>
    (m.store (m.reg base + BitVec.ofNat 64 off) (m.reg reg)).store
      (m.reg base + BitVec.ofNat 64 (off + 8)) (m.reg reg')
  | .strxu reg base off | .strdu reg base off => m.store (m.reg base + BitVec.ofNat 64 off) (m.reg reg)
  | .movSpx dst src => m.setReg dst (m.reg src)

def FrameInst.run (m : Machine) : FrameInst → Machine
  | .save i => i.run m
  | .ldpx reg reg' base off | .ldpd reg reg' base off =>
    (m.setReg reg (m.load (m.reg base + BitVec.ofNat 64 off))).setReg reg'
      (m.load (m.reg base + BitVec.ofNat 64 (off + 8)))
  | .ldrxu reg base off | .ldrdu reg base off => m.setReg reg (m.load (m.reg base + BitVec.ofNat 64 off))
  | .addxi dst src imm => m.setReg dst (m.reg src + BitVec.ofNat 64 imm)
  | .ret reg => { m with pc := m.reg reg }
  | .nop => m

/-- The instructions that there are encodings for. -/
def PrologueInst.Encodable : PrologueInst → Prop
  | .subxi imm => AddImm imm
  | .stpx _ _ _ off | .stpd _ _ _ off => off % 8 = 0 ∧ off ≤ 504
  | .strxu _ _ off | .strdu _ _ off => off % 8 = 0 ∧ off ≤ 32760
  | .movSpx .. => True

def FrameInst.Encodable : FrameInst → Prop
  | .save i => i.Encodable
  | .ldpx _ _ _ off | .ldpd _ _ _ off => off % 8 = 0 ∧ off ≤ 504
  | .ldrxu _ _ off | .ldrdu _ _ off => off % 8 = 0 ∧ off ≤ 32760
  | .addxi _ _ imm => AddImm imm
  | .ret _ | .nop => True

/-- The body of a function keeps the save area, the frame pointer and the registers that are not
clobbered; without dynamic allocas it also leaves the stack pointer where it found it. -/
structure BodyKeeps (clobbered : BitVec 64) (dynAlloca : Bool) (m m' : Machine) : Prop where
  framePointer : m'.reg fp = m.reg fp
  stackPointer : dynAlloca = false → m'.reg sp = m.reg sp
  regs : ∀ reg, calleeSavedRegs.getLsbD reg = true → clobbered.getLsbD reg = false → m'.reg reg = m.reg reg
  area : Untouched m m' (m.reg fp) startFrameSize

/-- A function returns with the registers that it was called with. -/
structure Returns (m m' : Machine) : Prop where
  stackPointer : m'.reg sp = m.reg sp
  framePointer : m'.reg fp = m.reg fp
  link : m'.reg lr = m.reg lr
  pc : m'.pc = m.reg lr
  regs : ∀ reg, calleeSavedRegs.getLsbD reg = true → m'.reg reg = m.reg reg

/-- Instructions are in the text. -/
def CodeAt (code : ℕ → Branches.Inst (TextOp Body)) (off : ℕ) (insts : List FrameInst) : Prop :=
  ∀ (i : ℕ) (inst : FrameInst), insts[i]? = some inst → code (off + 4 * i) = .op (.frame inst)

/-- The function gets text in which the prologue leads to its body, and an epilogue at every return
undoes it. -/
def Func.Undone (f : Func Body) (clobbered : BitVec 64) (frameSize : ℕ) (dynAlloca : Bool) : Prop :=
  ∃ f' w pro epi, f.finishFunc clobbered frameSize dynAlloca = some f' ∧ f'.textWriter.handleFixups = some w ∧
    (∀ i ∈ pro ++ epi, i.Encodable) ∧
      f'.funcStartOff + 4 * pro.length = f.funcStartOff + f.funcPrologueAlloc ∧
    f'.funcStartOff % 16 = f.funcStartOff % 16 ∧ CodeAt w.code f'.funcStartOff pro ∧
    (∀ off ∈ f.funcRetOffs, CodeAt w.code off epi) ∧
    ∀ m m', BodyKeeps clobbered dynAlloca (pro.foldl FrameInst.run m) m' →
      Returns m (epi.foldl FrameInst.run m')

/-! ### Saves and loads -/

theorem ofNat_add_eight (off : ℕ) : BitVec.ofNat 64 off + 8 = BitVec.ofNat 64 (off + 8) :=
  (BitVec.ofNat_add ..).symm

section
variable {frameSize stackReg : ℕ}

theorem run_strInst (m : Machine) (reg off : ℕ) :
    (strInst stackReg reg off).run m = m.store (m.reg stackReg + BitVec.ofNat 64 off) (m.reg reg) := by
  rw [strInst]
  split <;> rfl

theorem run_stpInst (m : Machine) (reg reg' off : ℕ) : (stpInst stackReg reg reg' off).run m =
    (m.store (m.reg stackReg + BitVec.ofNat 64 off) (m.reg reg)).store
      (m.reg stackReg + BitVec.ofNat 64 (off + 8)) (m.reg reg') := by
  rw [stpInst]
  split <;> rfl

/-- The loop of the prologue stores the registers one behind the other. -/
theorem run_saveLoop : ∀ {regs : List ℕ} {lastReg : Option ℕ} {frameOff : ℕ} {m : Machine},
    (saveLoop frameSize stackReg lastReg frameOff regs).1.foldl PrologueInst.run m =
      saveAll (m.reg stackReg) (slotsFrom 8 (BitVec.ofNat 64 frameOff) (lastReg.toList ++ regs)) m
  | [], none, _, _ => rfl
  | [], some lastReg, frameOff, m => run_strInst m lastReg frameOff
  | reg :: regs, none, frameOff, m => @run_saveLoop regs (some reg) frameOff m
  | reg :: regs, some lastReg, frameOff, m => by
    rw [saveLoop]
    split
    · show List.foldl _ ((stpInst stackReg lastReg reg frameOff).run m) _ = _
      rw [run_saveLoop, run_stpInst]
      simp only [Option.toList_none, Option.toList_some, List.nil_append, List.cons_append, slotsFrom,
        saveAll_cons,
        Machine.reg_store, ofNat_add_eight]
    · show List.foldl _ ((strInst stackReg lastReg frameOff).run m) _ = _
      rw [run_saveLoop, run_strInst]
      simp only [Option.toList_some, List.nil_append, List.cons_append, slotsFrom, saveAll_cons,
        Machine.reg_store, ofNat_add_eight]

theorem run_ldrInst (m : Machine) (reg off : ℕ) :
    (ldrInst stackReg reg off).run m = m.setReg reg (m.load (m.reg stackReg + BitVec.ofNat 64 off)) := by
  rw [ldrInst]
  split <;> rfl

theorem run_ldpInst (m : Machine) (reg reg' off : ℕ) : (ldpInst stackReg reg reg' off).run m =
    (m.setReg reg (m.load (m.reg stackReg + BitVec.ofNat 64 off))).setReg reg'
      (m.load (m.reg stackReg + BitVec.ofNat 64 (off + 8))) := by
  rw [ldpInst]
  split <;> rfl

/-- The loop of an epilogue loads them. -/
theorem run_restoreLoop : ∀ {regs : List ℕ} {lastReg : Option ℕ} {frameOff : ℕ} {m : Machine},
    stackReg ∉ lastReg.toList ++ regs →
    (restoreLoop stackReg lastReg frameOff regs).foldl FrameInst.run m =
      restoreAll (m.reg stackReg) (slotsFrom 8 (BitVec.ofNat 64 frameOff) (lastReg.toList ++ regs)) m
  | [], none, _, _, _ => rfl
  | [], some lastReg, frameOff, m, _ => run_ldrInst m lastReg frameOff
  | reg :: regs, none, frameOff, m, h => @run_restoreLoop regs (some reg) frameOff m h
  | reg :: regs, some lastReg, frameOff, m, h => by
    simp only [Option.toList_some, List.cons_append, List.nil_append, List.mem_cons, not_or] at h
    obtain ⟨hlast, hreg, hregs⟩ := h
    rw [restoreLoop]
    split
    · rw [List.foldl_cons, run_restoreLoop (by simpa using hregs), run_ldpInst]
      simp only [Option.toList_none, Option.toList_some, List.nil_append, List.cons_append, slotsFrom,
        restoreAll_cons,
        Machine.setReg_of_ne _ hreg, Machine.setReg_of_ne _ hlast, Machine.load_setReg, ofNat_add_eight]
    · rw [List.foldl_cons, run_restoreLoop (by simpa using ⟨hreg, hregs⟩), run_ldrInst]
      simp only [Option.toList_some, List.nil_append, List.cons_append, slotsFrom, restoreAll_cons,
        Machine.setReg_of_ne _ hlast,
        Machine.load_setReg, ofNat_add_eight]

/-- The slots are in reach of the stores and the loads. -/
theorem saveLoop_encodable : ∀ {regs : List ℕ} {lastReg : Option ℕ} {frameOff : ℕ}, frameOff % 8 = 0 →
    frameOff + 8 * (regs.length + lastReg.toList.length) ≤ 504 →
    ∀ i ∈ (saveLoop frameSize stackReg lastReg frameOff regs).1, i.Encodable
  | [], none, _, _, _ => nofun
  | [], some lastReg, frameOff, hoff, hle => by
    refine List.forall_mem_singleton.mpr ?_
    rw [strInst]
    split <;> exact ⟨hoff, by omega⟩
  | reg :: regs, none, frameOff, hoff, hle => by
    refine @saveLoop_encodable regs (some reg) frameOff hoff ?_
    simpa using hle
  | reg :: regs, some lastReg, frameOff, hoff, hle => by
    simp only [List.length_cons, Option.toList_some, List.length_nil] at hle
    rw [saveLoop]
    split
    · refine List.forall_mem_cons.mpr ⟨?_,
        @saveLoop_encodable regs none (frameOff + 16) (by omega) (by simp; omega)⟩
      rw [stpInst]
      split <;> exact ⟨hoff, by omega⟩
    · refine List.forall_mem_cons.mpr ⟨?_,
        @saveLoop_encodable regs (some reg) (frameOff + 8) (by omega) (by simp; omega)⟩
      rw [strInst]
      split <;> exact ⟨hoff, by omega⟩

theorem restoreLoop_encodable : ∀ {regs : List ℕ} {lastReg : Option ℕ} {frameOff : ℕ}, frameOff % 8 = 0 →
    frameOff + 8 * (regs.length + lastReg.toList.length) ≤ 504 →
      ∀ i ∈ restoreLoop stackReg lastReg frameOff regs, i.Encodable
  | [], none, _, _, _ => nofun
  | [], some lastReg, frameOff, hoff, hle => by
    refine List.forall_mem_singleton.mpr ?_
    rw [ldrInst]
    split <;> exact ⟨hoff, by omega⟩
  | reg :: regs, none, frameOff, hoff, hle => by
    refine @restoreLoop_encodable regs (some reg) frameOff hoff ?_
    simpa using hle
  | reg :: regs, some lastReg, frameOff, hoff, hle => by
    simp only [List.length_cons, Option.toList_some, List.length_nil] at hle
    rw [restoreLoop]
    split
    · refine List.forall_mem_cons.mpr ⟨?_,
        @restoreLoop_encodable regs none (frameOff + 16) (by omega) (by simp; omega)⟩
      rw [ldpInst]
      split <;> exact ⟨hoff, by omega⟩
    · refine List.forall_mem_cons.mpr ⟨?_,
        @restoreLoop_encodable regs (some reg) (frameOff + 8) (by omega) (by simp; omega)⟩
      rw [ldrInst]
      split <;> exact ⟨hoff, by omega⟩

/-- There is an instruction for each store. -/
theorem length_restoreLoop : ∀ {regs : List ℕ} {lastReg : Option ℕ} {frameOff : ℕ},
    (restoreLoop stackReg lastReg frameOff regs).length =
      (saveLoop frameSize stackReg lastReg frameOff regs).1.length
  | [], none, _ => rfl
  | [], some _, _ => rfl
  | reg :: regs, none, frameOff => @length_restoreLoop regs (some reg) frameOff
  | reg :: regs, some lastReg, frameOff => by
    rw [restoreLoop, saveLoop]
    split <;> rw [List.length_cons, length_restoreLoop] <;> rfl

/-! ### The room for the instructions -/

theorem length_saveLoop_bank {bank : ℕ} : ∀ {regs : List ℕ} {lastReg : Option ℕ} {frameOff : ℕ},
    (∀ reg ∈ lastReg.toList ++ regs, regBank reg = bank) →
    (saveLoop frameSize stackReg lastReg frameOff regs).1.length =
      (regs.length + lastReg.toList.length + 1) / 2
  | [], none, _, _ => rfl
  | [], some _, _, _ => by simp [saveLoop]
  | reg :: regs, none, frameOff, h => by
    rw [saveLoop, @length_saveLoop_bank bank regs (some reg) frameOff (by simpa using h)]
    simp
  | reg :: regs, some lastReg, frameOff, h => by
    have hbank : regBank reg = regBank lastReg := (h reg (by simp)).trans (h lastReg (by simp)).symm
    rw [saveLoop, if_pos hbank, List.length_cons,
      @length_saveLoop_bank bank regs none (frameOff + 16) fun r hr =>
        h r (by simpa using .inr (.inr (by simpa using hr)))]
    simp only [Option.toList_none, Option.toList_some, List.length_cons, List.length_nil]
    omega

/-- Registers of one bank behind those of another. -/
theorem length_saveLoop_banks {fps : List ℕ} (hfps : ∀ reg ∈ fps, regBank reg = 1) :
    ∀ {gps : List ℕ} {lastReg : Option ℕ} {frameOff : ℕ},
    (∀ reg ∈ lastReg.toList ++ gps, regBank reg = 0) →
      (saveLoop frameSize stackReg lastReg frameOff (gps ++ fps)).1.length =
      (gps.length + lastReg.toList.length + 1) / 2 + (fps.length + 1) / 2
  | [], none, frameOff, _ => by
    rw [List.nil_append, @length_saveLoop_bank _ _ 1 fps none frameOff (by simpa using hfps)]
    simp
  | [], some lastReg, frameOff, h => by
    cases fps with
    | nil => simp [saveLoop]
    | cons reg fps =>
      have hbank : regBank reg ≠ regBank lastReg := by
        rw [hfps reg List.mem_cons_self, h lastReg (by simp)]
        decide
      rw [List.nil_append, saveLoop, if_neg hbank, List.length_cons,
        @length_saveLoop_bank _ _ 1 fps (some reg) (frameOff + 8) (by simpa using hfps)]
      simp only [Option.toList_some, List.length_cons, List.length_nil]
      omega
  | reg :: gps, none, frameOff, h => by
    rw [List.cons_append, saveLoop,
      @length_saveLoop_banks fps hfps gps (some reg) frameOff (by simpa using h)]
    simp
  | reg :: gps, some lastReg, frameOff, h => by
    have hbank : regBank reg = regBank lastReg := (h reg (by simp)).trans (h lastReg (by simp)).symm
    rw [List.cons_append, saveLoop, if_pos hbank, List.length_cons,
      @length_saveLoop_banks fps hfps gps none (frameOff + 16) fun r hr =>
        h r (by simpa using .inr (.inr (by simpa using hr)))]
    simp only [Option.toList_none, Option.toList_some, List.length_cons, List.length_nil]
    omega

/-- At most five pairs of general registers and four of vector registers are saved. -/
theorem length_saves (clobbered : BitVec 64) :
    (saveLoop frameSize stackReg none 16 (savedRegs clobbered)).1.length ≤ 9 := by
  set saved : ℕ → Bool := fun reg => (clobbered &&& calleeSavedRegs).getLsbD reg with hsaved
  have hsplit : savedRegs clobbered = (List.range 32).filter saved ++ (List.range' 32 32).filter saved := by
    rw [savedRegs, ← List.filter_append]
    rfl
  have hle (l : List ℕ) :
    (l.filter saved).length ≤ (l.filter fun reg => calleeSavedRegs.getLsbD reg).length := by
    refine (List.monotone_filter_right _ fun reg h => ?_).length_le
    simp only [hsaved, BitVec.getLsbD_and, Bool.and_eq_true] at h
    exact h.2
  have hgps := (hle (List.range 32)).trans_eq (show _ = 10 by decide +kernel)
  have hfps := (hle (List.range' 32 32)).trans_eq (show _ = 8 by decide +kernel)
  rw [hsplit, length_saveLoop_banks (fun reg hreg => ?_) fun reg hreg => ?_]
  · simp only [Option.toList_none, List.length_nil]
    omega
  · have := List.mem_range'_1.mp (List.mem_filter.mp hreg).1
    rw [regBank]
    omega
  · have := List.mem_range.mp (List.mem_filter.mp (by simpa using hreg)).1
    rw [regBank]
    omega

end

theorem regSaveSize_eq : regSaveSize = 36 := by decide +kernel

theorem length_prologue_le (clobbered : BitVec 64) (frameSize : ℕ) (dynAlloca : Bool) :
    4 * (prologue clobbered frameSize dynAlloca).length ≤ regSaveSize + 12 := by
  have h := @length_saves (finalFrameSize frameSize) (if dynAlloca then fp else sp) clobbered
  rw [prologue, List.length_append, regSaveSize_eq]
  simp only [List.length_cons, List.length_nil]
  omega

theorem length_epilogue_le (clobbered : BitVec 64) (frameSize : ℕ) (dynAlloca : Bool) :
    4 * (epilogue clobbered frameSize dynAlloca).length ≤ regSaveSize + 12 + if dynAlloca then 4 else 0 := by
  have h := @length_saves (finalFrameSize frameSize) (if dynAlloca then fp else sp) clobbered
  rw [← length_restoreLoop] at h
  rw [epilogue, regSaveSize_eq]
  cases dynAlloca <;> simp only [List.length_append, List.length_cons, List.length_nil,
    Bool.false_eq_true, if_false, if_true] at h ⊢ <;> omega

/-! ### Prologues and epilogues -/

theorem mem_savedRegs {clobbered : BitVec 64} {reg : ℕ} :
    reg ∈ savedRegs clobbered ↔ clobbered.getLsbD reg = true ∧ calleeSavedRegs.getLsbD reg = true := by
  rw [savedRegs, List.mem_filter, List.mem_range, BitVec.getLsbD_and, Bool.and_eq_true]
  exact ⟨fun h => h.2, fun h => ⟨BitVec.lt_of_getLsbD h.1, h⟩⟩

theorem calleeSaved_bounds {reg : ℕ} (h : calleeSavedRegs.getLsbD reg = true) : 19 ≤ reg ∧ reg < 29 ∨
    40 ≤ reg ∧ reg < 48 := by
  have hall : ∀ reg < 64, calleeSavedRegs.getLsbD reg = true → 19 ≤ reg ∧ reg < 29 ∨ 40 ≤ reg ∧
    reg < 48 := by decide +kernel
  exact hall reg (BitVec.lt_of_getLsbD h) h

/-- The slots of the registers behind the frame pointer. -/
abbrev saveSlots (clobbered : BitVec 64) : List (ℕ × BitVec 64) :=
  slotsFrom 8 (BitVec.ofNat 64 16) (savedRegs clobbered)

/-- What memory and the registers have while the frame of a function is there. -/
structure Framed (clobbered : BitVec 64) (frameSize : ℕ) (m m' : Machine) : Prop where
  framePointer : m'.reg fp = m.reg sp - BitVec.ofNat 64 (finalFrameSize frameSize)
  regs : ∀ reg, calleeSavedRegs.getLsbD reg = true → clobbered.getLsbD reg = false → m'.reg reg = m.reg reg
  callerFrame : m'.load (m'.reg fp + BitVec.ofNat 64 0) = m.reg fp
  callerLink : m'.load (m'.reg fp + BitVec.ofNat 64 8) = m.reg lr
  saved : ∀ x ∈ saveSlots clobbered, m'.load (m'.reg fp + x.2) = m.reg x.1

variable {clobbered : BitVec 64} {frameSize : ℕ} {dynAlloca : Bool} {m m' : Machine}

theorem mem_saveSlots {x : ℕ × BitVec 64} (h : x ∈ saveSlots clobbered) :
    calleeSavedRegs.getLsbD x.1 = true ∧ ∃ k, 16 ≤ k ∧ k + 8 ≤ startFrameSize ∧ x.2 = BitVec.ofNat 64 k := by
  have hreg : x.1 ∈ savedRegs clobbered := by
    rw [← @map_fst_slotsFrom 8 (BitVec.ofNat 64 16) (savedRegs clobbered)]
    exact List.mem_map_of_mem h
  obtain ⟨k, hk, heq⟩ := mem_slotsFrom h
  have hlen := length_savedRegs clobbered
  have hsize : startFrameSize = 160 := by decide +kernel
  refine ⟨(mem_savedRegs.mp hreg).2, 16 + k * 8, by omega, by omega, ?_⟩
  rw [heq, BitVec.ofNat_add, BitVec.ofNat_mul]
  rfl

theorem foldl_save (insts : List PrologueInst) (m : Machine) :
    (insts.map .save).foldl FrameInst.run m = insts.foldl PrologueInst.run m :=
  List.foldl_map ..

theorem foldl_nop (n : ℕ) (m : Machine) : (List.replicate n FrameInst.nop).foldl FrameInst.run m = m := by
  induction n with
  | zero => rfl
  | succ n ih => exact ih

/-- The frame pointer, the return address and the stack pointer of the caller. -/
def linkFrame (size : ℕ) (m : Machine) : Machine :=
  [PrologueInst.subxi size, .stpx fp lr sp 0, .movSpx fp sp].foldl PrologueInst.run m

theorem linkFrame_reg (size : ℕ) (m : Machine) : (linkFrame size m).reg sp = m.reg sp - BitVec.ofNat 64 size ∧
    (linkFrame size m).reg fp = m.reg sp - BitVec.ofNat 64 size ∧ ∀ reg, reg ≠ sp → reg ≠ fp →
      (linkFrame size m).reg reg = m.reg reg := by
  refine ⟨rfl, rfl, fun reg hsp hfp => ?_⟩
  simp only [linkFrame, List.foldl_cons, List.foldl_nil, PrologueInst.run]
  rw [Machine.setReg_of_ne _ hfp, Machine.reg_store, Machine.reg_store, Machine.setReg_of_ne _ hsp]

theorem linkFrame_load (size : ℕ) (m : Machine) :
    (linkFrame size m).load (m.reg sp - BitVec.ofNat 64 size + BitVec.ofNat 64 0) = m.reg fp ∧
      (linkFrame size m).load (m.reg sp - BitVec.ofNat 64 size + BitVec.ofNat 64 8) = m.reg lr := by
  simp only [linkFrame, List.foldl_cons, List.foldl_nil, PrologueInst.run, Machine.load_setReg,
    Machine.setReg_self]
  constructor
  · rw [load_store_of_apart (@apart_ofNat 0 (0 + 8) le_rfl (by decide)).symm, Machine.load_store]
    rfl
  · rw [Machine.load_store]
    rfl

theorem run_prologue (m : Machine) : (prologue clobbered frameSize dynAlloca).foldl PrologueInst.run m =
    saveAll (m.reg sp - BitVec.ofNat 64 (finalFrameSize frameSize)) (saveSlots clobbered)
      (linkFrame (finalFrameSize frameSize) m) := by
  obtain ⟨hsp, hfp, -⟩ := linkFrame_reg (finalFrameSize frameSize) m
  rw [prologue, List.foldl_append, ← linkFrame, run_saveLoop]
  cases dynAlloca with
  | false => exact congrArg (saveAll · _ _) hsp
  | true => exact congrArg (saveAll · _ _) hfp

/-- **The prologue makes the frame.** -/
theorem framed_prologue (m : Machine) :
    Framed clobbered frameSize m ((prologue clobbered frameSize dynAlloca).foldl PrologueInst.run m) := by
  obtain ⟨-, hfp, hregs⟩ := linkFrame_reg (finalFrameSize frameSize) m
  obtain ⟨hframe, hlink⟩ := linkFrame_load (finalFrameSize frameSize) m
  have hsize : startFrameSize = 160 := by decide +kernel
  have hlen := length_savedRegs clobbered
  rw [run_prologue]
  set base := m.reg sp - BitVec.ofNat 64 (finalFrameSize frameSize) with hbase
  have happart (k : ℕ) (hk : k ≤ 8) : ∀ x ∈ saveSlots clobbered, Apart x.2 (BitVec.ofNat 64 k) :=
    fun x hx => by
    obtain ⟨-, k', hlo, hhi, heq⟩ := mem_saveSlots hx
    rw [heq]
    exact (apart_ofNat (by omega) (by omega)).symm
  refine ⟨by rw [reg_saveAll, hfp], fun reg hreg _ => ?_, ?_, ?_, fun x hx => ?_⟩
  · have hb := calleeSaved_bounds hreg
    rw [reg_saveAll, hregs _ (by unfold sp; omega) (by unfold fp; omega)]
  · rw [reg_saveAll, hfp, load_saveAll_of_apart (happart 0 (by decide)), hframe]
  · rw [reg_saveAll, hfp, load_saveAll_of_apart (happart 8 le_rfl), hlink]
  · have hb := calleeSaved_bounds (mem_saveSlots hx).1
    rw [reg_saveAll, hfp, load_saveAll (apart_slotsFrom (.inl rfl) (by omega)) x hx,
      hregs _ (by unfold sp; omega) (by unfold fp; omega)]

/-- The body of a function keeps the frame. -/
theorem Framed.body {m'' : Machine} (h : Framed clobbered frameSize m m')
    (hbody : BodyKeeps clobbered dynAlloca m' m'') :
    Framed clobbered frameSize m m'' := by
  have hsize : startFrameSize = 160 := by decide +kernel
  obtain ⟨hfp, hregs, hframe, hlink, hsaved⟩ := h
  refine ⟨by rw [hbody.framePointer, hfp], fun reg hreg hclob => ?_, ?_, ?_, fun x hx => ?_⟩
  · rw [hbody.regs reg hreg hclob, hregs reg hreg hclob]
  · rw [hbody.framePointer, hbody.area.load (by omega), hframe]
  · rw [hbody.framePointer, hbody.area.load (by omega), hlink]
  · obtain ⟨-, k, -, hk, heq⟩ := mem_saveSlots hx
    rw [← hsaved x hx, hbody.framePointer, heq, hbody.area.load hk]

/-- The registers that are saved are none of the pointers. -/
theorem not_saveSlots {reg : ℕ} (hreg : reg = sp ∨ reg = fp ∨ reg = lr) : ∀ x ∈ saveSlots clobbered,
    reg ≠ x.1 := by
  intro x hx
  have := calleeSaved_bounds (mem_saveSlots hx).1
  unfold sp fp lr at hreg
  omega

/-- The registers that a function keeps are loaded, or were never changed. -/
theorem Framed.restored (h : Framed clobbered frameSize m m') (m₁ : Machine)
    (hload : ∀ a, m₁.load a = m'.load a)
    (hregs : ∀ reg, calleeSavedRegs.getLsbD reg = true → m₁.reg reg = m'.reg reg) {reg : ℕ}
    (hreg : calleeSavedRegs.getLsbD reg = true) :
    (restoreAll (m'.reg fp) (saveSlots clobbered) m₁).reg reg = m.reg reg := by
  by_cases hclob : clobbered.getLsbD reg = true
  · obtain ⟨o, ho⟩ := @exists_slot 8 (BitVec.ofNat 64 16) _ _ (mem_savedRegs.mpr ⟨hclob, hreg⟩)
    have hnodup : ((saveSlots clobbered).map Prod.fst).Nodup := by
      rw [map_fst_slotsFrom, savedRegs]
      exact List.nodup_range.filter _
    rw [restoreAll_of_mem hnodup _ ho, hload, h.saved _ ho]
  · rw [restoreAll_of_not_mem fun x hx heq => hclob ?_, hregs reg hreg,
      h.regs reg hreg (by simpa using hclob)]
    have hmem : x.1 ∈ savedRegs clobbered := by
      rw [← @map_fst_slotsFrom 8 (BitVec.ofNat 64 16) (savedRegs clobbered)]
      exact List.mem_map_of_mem hx
    exact heq ▸ (mem_savedRegs.mp hmem).1

theorem not_mem_savedRegs {reg : ℕ} (hreg : reg = sp ∨ reg = fp) :
    reg ∉ (none : Option ℕ).toList ++ savedRegs clobbered := by
  intro h
  have := calleeSaved_bounds (mem_savedRegs.mp h).2
  unfold sp fp at hreg
  omega

/-- The last two instructions. -/
theorem returns_of_restored (hsp : m'.reg sp = m.reg sp - BitVec.ofNat 64 (finalFrameSize frameSize))
    (hfp : m'.reg fp = m.reg fp)
    (hlr : m'.reg lr = m.reg lr) (hregs : ∀ reg, calleeSavedRegs.getLsbD reg = true →
      m'.reg reg = m.reg reg) :
    Returns m ([FrameInst.addxi sp sp (finalFrameSize frameSize), .ret lr].foldl FrameInst.run m') := by
  set m₁ := m'.setReg sp (m'.reg sp + BitVec.ofNat 64 (finalFrameSize frameSize)) with hm₁
  have hset {reg : ℕ} (hreg : reg ≠ sp) : m₁.reg reg = m'.reg reg := m'.setReg_of_ne hreg _
  show Returns m { m₁ with pc := m₁.reg lr }
  refine ⟨?_, (hset (by decide)).trans hfp, (hset (by decide)).trans hlr, (hset (by decide)).trans hlr,
    fun reg hreg => ?_⟩
  · show m₁.reg sp = _
    rw [hm₁, Machine.setReg_self, hsp, BitVec.sub_add_cancel]
  · have := calleeSaved_bounds hreg
    exact (hset (by unfold sp; omega)).trans (hregs reg hreg)

/-- **An epilogue returns** from the frame. -/
theorem Framed.returns (h : Framed clobbered frameSize m m')
    (hsp : dynAlloca = false → m'.reg sp = m'.reg fp) :
    Returns m ((epilogue clobbered frameSize dynAlloca).foldl FrameInst.run m') := by
  rw [epilogue, List.foldl_append, List.foldl_append, List.foldl_append]
  cases dynAlloca with
  | false =>
    have hsp := hsp rfl
    set m₁ :=
      (m'.setReg fp (m'.load (m'.reg sp + BitVec.ofNat 64 0))).setReg lr
        (m'.load (m'.reg sp + BitVec.ofNat 64 (0 + 8))) with hm₁
    have hm₁sp : m₁.reg sp = m'.reg fp := hsp
    have hrun : (restoreLoop sp none 16 (savedRegs clobbered)).foldl FrameInst.run m₁ =
      restoreAll (m'.reg fp) (saveSlots clobbered) m₁ := by
      rw [run_restoreLoop (not_mem_savedRegs (.inl rfl)), hm₁sp]
      rfl
    simp only [Bool.false_eq_true, if_false]
    rw [show [FrameInst.ldpx fp lr sp 0].foldl FrameInst.run m' = m₁ from rfl, hrun, List.foldl_nil]
    refine returns_of_restored ?_ ?_ ?_ fun reg hreg => ?_
    · rw [restoreAll_of_not_mem (not_saveSlots (.inl rfl)), hm₁sp, h.framePointer]
    · rw [restoreAll_of_not_mem (not_saveSlots (.inr (.inl rfl))), ← h.callerFrame, ← hsp]
      rfl
    · rw [restoreAll_of_not_mem (not_saveSlots (.inr (.inr rfl))), ← h.callerLink, ← hsp]
      rfl
    · refine h.restored m₁ (fun _ => rfl) (fun reg hreg => ?_) hreg
      have := calleeSaved_bounds hreg
      rw [hm₁, Machine.setReg_of_ne _ (by unfold lr; omega), Machine.setReg_of_ne _ (by unfold fp; omega)]
  | true =>
    set m₁ := m'.setReg sp (m'.reg fp) with hm₁
    have hm₁fp : m₁.reg fp = m'.reg fp := rfl
    have hrun : (restoreLoop fp none 16 (savedRegs clobbered)).foldl FrameInst.run m₁ =
      restoreAll (m'.reg fp) (saveSlots clobbered) m₁ := by
      rw [run_restoreLoop (not_mem_savedRegs (.inr rfl)), hm₁fp]
      rfl
    simp only [if_true]
    rw [show [FrameInst.save (.movSpx sp fp)].foldl FrameInst.run m' = m₁ from rfl, hrun]
    set m₂ := restoreAll (m'.reg fp) (saveSlots clobbered) m₁ with hm₂
    have hm₂sp : m₂.reg sp = m'.reg fp := restoreAll_of_not_mem (not_saveSlots (.inl rfl))
    have hm₂load (a : BitVec 64) : m₂.load a = m'.load a := by
      rw [Machine.load, Machine.load, hm₂, mem_restoreAll]
      rfl
    set m₃ :=
      (m₂.setReg fp (m₂.load (m₂.reg sp + BitVec.ofNat 64 0))).setReg lr
        (m₂.load (m₂.reg sp + BitVec.ofNat 64 (0 + 8))) with hm₃
    rw [show [FrameInst.ldpx fp lr sp 0].foldl FrameInst.run m₂ = m₃ from rfl]
    refine returns_of_restored ?_ ?_ ?_ fun reg hreg => ?_
    · exact hm₂sp.trans h.framePointer
    · rw [← h.callerFrame, ← hm₂load, ← hm₂sp]
      rfl
    · rw [← h.callerLink, ← hm₂load, ← hm₂sp]
      rfl
    · have := calleeSaved_bounds hreg
      rw [hm₃, Machine.setReg_of_ne _ (by unfold lr; omega), Machine.setReg_of_ne _ (by unfold fp; omega)]
      exact h.restored m₁ (fun _ => rfl) (fun reg hreg => m'.setReg_of_ne (by
        have := calleeSaved_bounds hreg
        unfold sp
        omega) _) hreg

/-! ### The text -/

section
variable {f f' : Func Body}

/-- Where the body of a function starts. -/
def Func.bodyOff (f : Func Body) : ℕ := f.funcStartOff + f.funcPrologueAlloc

/-- The room for the prologue and the epilogues is apart from all that is fixed later. -/
structure Sites (dynAlloca : Bool) (f : Func Body) : Prop where
  prologueAlloc : f.funcPrologueAlloc = regSaveSize + 12
  epilogueAlloc : f.funcEpilogueAlloc = regSaveSize + 12 + if dynAlloca then 4 else 0
  body : f.bodyOff ≤ f.textWriter.offset
  fixup : ∀ x ∈ f.textWriter.labelFixups, f.bodyOff ≤ x.off ∧ x.off + 4 ≤ f.textWriter.offset ∧
    ∀ off ∈ f.funcRetOffs, x.off + 4 ≤ off ∨ off + f.funcEpilogueAlloc ≤ x.off
  ret : ∀ off ∈ f.funcRetOffs, f.bodyOff ≤ off ∧ off + f.funcEpilogueAlloc ≤ f.textWriter.offset
  apart : f.funcRetOffs.Pairwise fun off off' => off + f.funcEpilogueAlloc ≤ off'
  arg : ∀ x, f.funcArgStackAdd = some x → f.bodyOff ≤ x.1 ∧ x.1 + 4 ≤ f.textWriter.offset ∧
    ∀ off ∈ f.funcRetOffs, x.1 + 4 ≤ off ∨ off + f.funcEpilogueAlloc ≤ x.1

/-- More text. -/
theorem Sites.text {w : FunctionWriterA64 (TextOp Body)} (h : Sites dynAlloca f)
    (hle : f.textWriter.offset ≤ w.offset)
    (hfixups : ∀ x ∈ w.labelFixups, x ∈ f.textWriter.labelFixups ∨ f.textWriter.offset ≤ x.off ∧
      x.off + 4 ≤ w.offset) :
    Sites dynAlloca { f with textWriter := w } := by
  obtain ⟨hpro, hepi, hbody, hfixup, hret, hapart, harg⟩ := h
  refine ⟨hpro, hepi, hbody.trans hle, fun x hx => ?_, fun off hoff => ?_, hapart, fun x hx => ?_⟩
  · rcases hfixups x hx with hx | ⟨hlo, hhi⟩
    · obtain ⟨hlo, hhi, hret⟩ := hfixup x hx
      exact ⟨hlo, hhi.trans hle, hret⟩
    · exact ⟨hbody.trans hlo, hhi, fun off hoff => .inr ((hret off hoff).2.trans hlo)⟩
  · obtain ⟨hlo, hhi⟩ := hret off hoff
    exact ⟨hlo, hhi.trans hle⟩
  · obtain ⟨hlo, hhi, hret⟩ := harg x hx
    exact ⟨hlo, hhi.trans hle, hret⟩

theorem Sites.exec {call : FuncCall Body} (h : Sites dynAlloca f) (hf : call.exec f = some f') :
    Sites dynAlloca f' := by
  cases call with
  | text call =>
    obtain ⟨w, hw, hf⟩ := Option.bind_eq_some_iff.mp hf
    obtain rfl := Option.some.inj hf
    obtain ⟨hle, hfixups⟩ := exec_fixups hw
    exact h.text hle hfixups
  | argStackAdd reg =>
    obtain ⟨w, hw, hf⟩ := Option.bind_eq_some_iff.mp hf
    obtain ⟨hle, hfixups⟩ := ensureSpace_fixups hw
    split at hf
    · obtain ⟨w', hw', hf⟩ := Option.bind_eq_some_iff.mp hf
      obtain rfl := Option.some.inj hf
      rw [FunctionWriterA64.writeUnchecked] at hw'
      obtain ⟨-, hw'⟩ := Option.ite_none_right_eq_some.mp hw'
      obtain rfl := Option.some.inj hw'
      obtain ⟨hpro, hepi, hbody, hfixup, hret, hapart, -⟩ := h.text (w := { w with
        code := Function.update w.code w.offset (.op (.frame (.addxi reg sp 0))), offset := w.offset + 4 })
        (hle.trans (Nat.le_add_right ..)) fun x hx => .inl (hfixups ▸ hx)
      refine ⟨hpro, hepi, hbody, hfixup, hret, hapart, fun x hx => ?_⟩
      obtain rfl := Option.some.inj hx
      exact ⟨h.body.trans hle, le_rfl, fun off hoff => .inr ((h.ret off hoff).2.trans hle)⟩
    · obtain rfl := Option.some.inj hf
      exact h.text hle fun x hx => .inl (hfixups ▸ hx)
  | genFuncEpilog =>
    obtain ⟨w, hw, hf⟩ := Option.bind_eq_some_iff.mp hf
    obtain rfl := Option.some.inj hf
    obtain ⟨hle, hfixups⟩ := ensureSpace_fixups hw
    obtain ⟨hpro, hepi, hbody, hfixup, hret, hapart, harg⟩ := h.text (w := skipText w f.funcEpilogueAlloc)
      (hle.trans (Nat.le_add_right ..)) fun x hx => .inl (hfixups ▸ hx)
    refine ⟨hpro, hepi, hbody, fun x hx => ?_, ?_, ?_, fun x hx => ?_⟩
    · obtain ⟨hlo, hhi, hoffs⟩ := hfixup x hx
      refine ⟨hlo, hhi, List.forall_mem_append.mpr ⟨hoffs, List.forall_mem_singleton.mpr (.inl ?_)⟩⟩
      exact (h.fixup x (hfixups ▸ hx)).2.1
    · refine List.forall_mem_append.mpr ⟨hret, List.forall_mem_singleton.mpr ⟨h.body, ?_⟩⟩
      exact Nat.add_le_add_right hle _
    · refine List.pairwise_append.mpr ⟨hapart, List.pairwise_singleton _ _, fun off hoff off' hoff' => ?_⟩
      obtain rfl := List.mem_singleton.mp hoff'
      exact (h.ret off hoff).2
    · obtain ⟨hlo, hhi, hoffs⟩ := harg x hx
      refine ⟨hlo, hhi, List.forall_mem_append.mpr ⟨hoffs, List.forall_mem_singleton.mpr (.inl ?_)⟩⟩
      exact (h.arg x hx).2.1

theorem Sites.run {calls : List (FuncCall Body)} (h : Sites dynAlloca f)
    (hf : calls.foldlM FuncCall.exec f = some f') :
    Sites dynAlloca f' := by
  induction calls generalizing f with
  | nil =>
    obtain rfl := Option.some.inj hf
    exact h
  | cons call calls ih =>
    obtain ⟨f₁, hf₁, hf⟩ := Option.bind_eq_some_iff.mp hf
    exact ih (h.exec hf₁) hf

theorem Sites.begin {w : FunctionWriterA64 (TextOp Body)} {expectedSize : ℕ}
    (hf : beginFunc w expectedSize dynAlloca = some f) :
    Sites dynAlloca f := by
  obtain ⟨w₁, hw₁, hf⟩ := Option.bind_eq_some_iff.mp hf
  obtain ⟨w₂, hw₂, hf⟩ := Option.bind_eq_some_iff.mp hf
  obtain ⟨w₂', hw₂', hw₂⟩ := Option.bind_eq_some_iff.mp hw₂
  obtain ⟨w₃, hw₃, hf⟩ := Option.bind_eq_some_iff.mp hf
  obtain rfl := Option.some.inj hw₂
  obtain rfl := Option.some.inj hf
  obtain ⟨hle, hfixups₃⟩ := ensureSpace_fixups hw₃
  have hfixups : w₃.labelFixups = [] := by
    rw [hfixups₃]
    exact ((ensureSpace_fixups hw₂').2).trans (ensureSpace_fixups hw₁).2
  refine ⟨rfl, rfl, Nat.add_le_add_right hle _, fun x hx => ?_, nofun, .nil, nofun⟩
  have hx : x ∈ w₃.labelFixups := hx
  rw [hfixups] at hx
  cases hx

/-! ### The end of a function -/

/-- Text is written over, and some of its end may be cut off. -/
def Rewritten (w w' : FunctionWriterA64 (TextOp Body)) : Prop :=
  ∃ code offset, w' = { w with code := code, offset := offset }

theorem Rewritten.trans {w w' w'' : FunctionWriterA64 (TextOp Body)} (h : Rewritten w w')
    (h' : Rewritten w' w'') : Rewritten w w'' := by
  obtain ⟨_, _, rfl⟩ := h
  obtain ⟨code, offset, rfl⟩ := h'
  exact ⟨code, offset, rfl⟩

/-- What is written to text in one place leaves the instructions in another. -/
theorem CodeAt.congr {code code' : ℕ → Branches.Inst (TextOp Body)} {off : ℕ} {insts : List FrameInst}
    (h : CodeAt code off insts)
    (hcode : ∀ i < insts.length, code' (off + 4 * i) = code (off + 4 * i)) : CodeAt code' off insts :=
  fun i inst hi => (hcode i (List.getElem?_eq_some_iff.mp hi).1).trans (h i inst hi)

theorem codeAt_writeAt (code : ℕ → Branches.Inst (TextOp Body)) (off : ℕ) (insts : List FrameInst) :
    CodeAt (writeAt code off (frameWords insts)) off insts := by
  intro i inst hi
  refine writeAt_of_getElem? ?_
  rw [frameWords, List.getElem?_map, hi]
  rfl

/-- The words of an epilogue, and zeros up to the end of its room. -/
def epilogueWords (alloc : ℕ) (insts : List FrameInst) : List (Branches.Inst (TextOp Body)) :=
  frameWords insts ++ zeroWords (alloc - 4 * insts.length)

theorem length_epilogueWords {alloc : ℕ} {insts : List FrameInst} (halloc : alloc % 4 = 0)
    (hle : 4 * insts.length ≤ alloc) :
    4 * (epilogueWords alloc insts : List (Branches.Inst (TextOp Body))).length = alloc := by
  rw [epilogueWords, List.length_append, frameWords, List.length_map, zeroWords, List.length_replicate]
  omega

/-- Words are in the text. -/
def WordsAt (code : ℕ → Branches.Inst (TextOp Body)) (off : ℕ)
    (words : List (Branches.Inst (TextOp Body))) : Prop :=
  ∀ (i : ℕ) (x : Branches.Inst (TextOp Body)), words[i]? = some x → code (off + 4 * i) = x

theorem WordsAt.codeAt {code : ℕ → Branches.Inst (TextOp Body)} {off alloc : ℕ} {insts : List FrameInst}
    (h : WordsAt code off (epilogueWords alloc insts)) : CodeAt code off insts := by
  intro i inst hi
  have hlt := (List.getElem?_eq_some_iff.mp hi).1
  refine h i _ ?_
  rw [epilogueWords, List.getElem?_append_left (by simpa [frameWords] using hlt), frameWords,
    List.getElem?_map, hi]
  rfl

/-- The first epilogue is copied to all other returns. -/
theorem copies {first count : ℕ} : ∀ {rest : List ℕ} {code : ℕ → Branches.Inst (TextOp Body)},
    (∀ off ∈ rest, first + 4 * count ≤ off) →
    rest.Pairwise (fun off off' => off + 4 * count ≤ off') →
    (∀ p, (∀ off ∈ rest, p < off ∨ off + 4 * count ≤ p) →
      rest.foldl (fun code off => writeAt code off (readAt code first count)) code p = code p) ∧
    ∀ off ∈ rest, ∀ i < count,
      rest.foldl (fun code off => writeAt code off (readAt code first count)) code (off + 4 * i) =
        code (first + 4 * i)
  | [], code, _, _ => ⟨fun _ _ => rfl, nofun⟩
  | off :: rest, code, hfirst, hapart => by
    obtain ⟨hoff, hapart⟩ := List.pairwise_cons.mp hapart
    obtain ⟨hle, hfirst⟩ := List.forall_mem_cons.mp hfirst
    have hlen : (readAt code first count).length = count := by simp [readAt]
    obtain ⟨hother, hcopy⟩ :=
      @copies first count rest (writeAt code off (readAt code first count)) hfirst hapart
    have hsame (i : ℕ) (hi : i < count) :
      writeAt code off (readAt code first count) (first + 4 * i) = code (first + 4 * i) :=
      writeAt_of_not_mem (.inl (by omega))
    refine ⟨fun p hp => ?_, List.forall_mem_cons.mpr ⟨fun i hi => ?_, fun off' hoff' i hi => ?_⟩⟩
    · obtain ⟨hp, hrest⟩ := List.forall_mem_cons.mp hp
      rw [List.foldl_cons, hother p hrest, writeAt_of_not_mem (by omega)]
    · rw [List.foldl_cons, hother _ fun off' hoff' => .inl ?_]
      · refine writeAt_of_getElem? ?_
        rw [readAt, List.getElem?_map, List.getElem?_range hi]
        rfl
      · have := hoff off' hoff'
        omega
    · rw [List.foldl_cons, hcopy off' hoff' i hi, hsame i hi]

/-- The room for a prologue is filled up to the body. -/
theorem paddedPrologue_room {alloc : ℕ} {insts : List PrologueInst} (halloc : alloc % 4 = 0)
    (hle : 4 * insts.length ≤ alloc) :
    4 * (paddedPrologue alloc insts).length + (alloc - 4 * (paddedPrologue alloc insts).length) / 16 *
      16 = alloc := by
  rw [paddedPrologue, List.length_append, List.length_map, List.length_replicate]
  omega

theorem finishPrologue_spec {insts : List PrologueInst} (halloc : f.funcPrologueAlloc % 4 = 0)
    (hle : 4 * insts.length ≤ f.funcPrologueAlloc) :
    ∃ f', f.finishPrologue insts = some f' ∧
      f'.funcStartOff + 4 * (paddedPrologue f.funcPrologueAlloc insts).length = f.bodyOff ∧
      f'.funcStartOff % 16 = f.funcStartOff % 16 ∧
      CodeAt f'.textWriter.code f'.funcStartOff (paddedPrologue f.funcPrologueAlloc insts) ∧
      Rewritten f.textWriter f'.textWriter ∧ f'.funcRetOffs = f.funcRetOffs ∧
      f'.funcEpilogueAlloc = f.funcEpilogueAlloc ∧ f'.funcArgStackAdd = f.funcArgStackAdd ∧
      ∀ p, f.bodyOff ≤ p → f'.textWriter.code p = f.textWriter.code p := by
  have hroom := paddedPrologue_room halloc hle
  have hbody : f.bodyOff = f.funcStartOff + f.funcPrologueAlloc := rfl
  refine ⟨_, if_pos hle, ?_, ?_, ?_, ⟨_, _, rfl⟩, rfl, rfl, rfl, fun p hp => ?_⟩
  · rw [Func.bodyOff]
    dsimp only
    omega
  · dsimp only
    omega
  · exact codeAt_writeAt _ _ _
  · have hzero (size : ℕ) : 4 * (zeroWords size : List (Branches.Inst (TextOp Body))).length ≤ size := by
      rw [zeroWords, List.length_replicate]
      omega
    have hskip :=
      hzero ((f.funcPrologueAlloc - 4 * (paddedPrologue f.funcPrologueAlloc insts).length) / 16 * 16)
    have hframe :
      (frameWords (paddedPrologue f.funcPrologueAlloc insts) : List (Branches.Inst (TextOp Body))).length =
        (paddedPrologue f.funcPrologueAlloc insts).length := List.length_map _
    dsimp only
    rw [writeAt_of_not_mem (.inr (by omega)), writeAt_of_not_mem (.inr (by omega))]

theorem finishEpilogues_spec {insts : List FrameInst} (halloc : f.funcEpilogueAlloc % 4 = 0)
    (hle : 4 * insts.length ≤ f.funcEpilogueAlloc)
    (hapart : f.funcRetOffs.Pairwise fun off off' => off + f.funcEpilogueAlloc ≤ off') :
    ∃ f', f.finishEpilogues insts = some f' ∧ f'.funcStartOff = f.funcStartOff ∧
      Rewritten f.textWriter f'.textWriter ∧
      (∀ off ∈ f.funcRetOffs, WordsAt f'.textWriter.code off (epilogueWords f.funcEpilogueAlloc insts)) ∧
      ∀ p, (∀ off ∈ f.funcRetOffs, p < off ∨ off + f.funcEpilogueAlloc ≤ p) →
        f'.textWriter.code p = f.textWriter.code p := by
  rw [Func.finishEpilogues]
  split
  · rename_i hnil
    exact ⟨f, rfl, rfl, ⟨_, _, rfl⟩, by simp [hnil], fun _ _ => rfl⟩
  · rename_i first rest hcons
    rw [hcons] at hapart ⊢
    obtain ⟨hfirst, hrest⟩ := List.pairwise_cons.mp hapart
    have hcount : 4 * (f.funcEpilogueAlloc / 4) = f.funcEpilogueAlloc := by omega
    set words : List (Branches.Inst (TextOp Body)) := epilogueWords f.funcEpilogueAlloc insts with hwords
    have hlen : 4 * words.length = f.funcEpilogueAlloc := length_epilogueWords halloc hle
    obtain ⟨hother, hcopy⟩ :=
      @copies _ first (f.funcEpilogueAlloc / 4) rest (writeAt f.textWriter.code first words)
      (by simpa only [hcount] using hfirst) (by simpa only [hcount] using hrest)
    rw [hcount] at hother
    have hcode : WordsAt (writeAt f.textWriter.code first words) first words :=
      fun i x hi => writeAt_of_getElem? hi
    refine ⟨_, if_pos hle, rfl, ⟨_, _, rfl⟩,
      List.forall_mem_cons.mpr ⟨fun i x hi => ?_, fun off hoff i x hi => ?_⟩, fun p hp => ?_⟩
    · have hlt := (List.getElem?_eq_some_iff.mp hi).1
      refine (hother _ fun off hoff => ?_).trans (hcode i x hi)
      have := hfirst off hoff
      omega
    · have hlt := (List.getElem?_eq_some_iff.mp hi).1
      exact (hcopy off hoff i (by omega)).trans (hcode i x hi)
    · obtain ⟨hp, hrest⟩ := List.forall_mem_cons.mp hp
      exact (hother p hrest).trans (writeAt_of_not_mem (by omega))

/-- The frame size of the arguments on the stack is written to one word. -/
theorem finishArgStackAdd_spec (f : Func Body) (size : ℕ) :
    (f.finishArgStackAdd size).funcStartOff = f.funcStartOff ∧
    Rewritten f.textWriter (f.finishArgStackAdd size).textWriter ∧
    (f.finishArgStackAdd size).funcRetOffs = f.funcRetOffs ∧
      (f.finishArgStackAdd size).funcEpilogueAlloc = f.funcEpilogueAlloc ∧
    ∀ p, (∀ x, f.funcArgStackAdd = some x → p ≠ x.1) →
      (f.finishArgStackAdd size).textWriter.code p = f.textWriter.code p := by
  rw [Func.finishArgStackAdd]
  split
  · exact ⟨rfl, ⟨_, _, rfl⟩, rfl, rfl, fun _ _ => rfl⟩
  · rename_i off reg harg
    refine ⟨rfl, ⟨_, _, rfl⟩, rfl, rfl, fun p hp => ?_⟩
    have hne := hp (off, reg) harg
    exact Function.update_of_ne hne ..

/-- Instructions are no fixups and not zero, so they stay when the labels are resolved. -/
theorem CodeAt.handleFixups {w w' : FunctionWriterA64 (TextOp Body)} {off : ℕ} {insts : List FrameInst}
    (h : CodeAt w.code off insts)
    (hfixups : ∀ x ∈ w.labelFixups, x.off + 4 ≤ off ∨ off + 4 * insts.length ≤ x.off)
    (hw : w.handleFixups = some w') :
    CodeAt w'.code off insts := by
  intro i inst hi
  have hlt := (List.getElem?_eq_some_iff.mp hi).1
  have hcode := h i inst hi
  rw [handleFixups_code (fun x hx => ?_) (by rw [hcode]; rfl) hw, hcode]
  have := hfixups x hx
  omega

/-- A function with its prologue and epilogues written. -/
structure Finished (clobbered : BitVec 64) (frameSize : ℕ) (dynAlloca : Bool) (f f' : Func Body) : Prop where
  body :
    f'.funcStartOff +
    4 * (paddedPrologue f.funcPrologueAlloc (prologue clobbered frameSize dynAlloca)).length = f.bodyOff
  align : f'.funcStartOff % 16 = f.funcStartOff % 16
  text : Rewritten f.textWriter f'.textWriter
  prologueAt :
    CodeAt f'.textWriter.code f'.funcStartOff
    (paddedPrologue f.funcPrologueAlloc (prologue clobbered frameSize dynAlloca))
  epilogueAt : ∀ off ∈ f.funcRetOffs,
    WordsAt f'.textWriter.code off
      (epilogueWords f.funcEpilogueAlloc (epilogue clobbered frameSize dynAlloca))
  other : ∀ p, f.bodyOff ≤ p → (∀ x, f.funcArgStackAdd = some x → p ≠ x.1) →
    (∀ off ∈ f.funcRetOffs, p < off ∨ off + f.funcEpilogueAlloc ≤ p) →
      f'.textWriter.code p = f.textWriter.code p

/-- `finish_func` of a frame that is small enough. -/
theorem Sites.finishFunc (h : Sites dynAlloca f) (hsize : finalFrameSize frameSize < 16 * 1024 * 1024) :
    ∃ f', f.finishFunc clobbered frameSize dynAlloca = some f' ∧
      Finished clobbered frameSize dynAlloca f f' := by
  obtain ⟨hpro, hepi, -, -, hret, hapart, harg⟩ := h
  have hlenPro := length_prologue_le clobbered frameSize dynAlloca
  have hlenEpi := length_epilogue_le clobbered frameSize dynAlloca
  rw [← hpro] at hlenPro
  rw [← hepi] at hlenEpi
  rw [regSaveSize_eq] at hpro hepi
  obtain ⟨f₁, hf₁, hend, hmod, hcode₁, htext₁, hrets₁, halloc₁, harg₁, hother₁⟩ :=
    @finishPrologue_spec _ f (prologue clobbered frameSize dynAlloca) (by omega) hlenPro
  obtain ⟨hstart₂, htext₂, hrets₂, halloc₂, hother₂⟩ := finishArgStackAdd_spec f₁ (finalFrameSize frameSize)
  set f₂ := f₁.finishArgStackAdd (finalFrameSize frameSize)
  have halloc : f₂.funcEpilogueAlloc = f.funcEpilogueAlloc := halloc₂.trans halloc₁
  have hrets : f₂.funcRetOffs = f.funcRetOffs := hrets₂.trans hrets₁
  obtain ⟨f₃, hf₃, hstart₃, htext₃, hcode₃, hother₃⟩ :=
    @finishEpilogues_spec _ f₂
      (epilogue clobbered frameSize dynAlloca) (by rw [halloc, hepi]; split <;> omega) (halloc ▸ hlenEpi)
      (by rw [hrets, halloc]; exact hapart)
  have hstart : f₃.funcStartOff = f₁.funcStartOff := hstart₃.trans hstart₂
  rw [hrets, halloc] at hcode₃ hother₃
  rw [harg₁] at hother₂
  refine ⟨f₃, ?_, hstart ▸ hend, hstart ▸ hmod, (htext₁.trans htext₂).trans htext₃, ?_, hcode₃,
    fun p hp hne hout => ?_⟩
  · rw [Func.finishFunc, if_pos hsize, hf₁, Option.bind_eq_bind, Option.bind_some, hf₃]
  · rw [hstart]
    refine hcode₁.congr fun i hi => ?_
    rw [hother₃ _ fun off hoff => .inl ?_, hother₂ _ fun x hx => ?_]
    · have := (harg x hx).1
      omega
    · have := (hret off hoff).1
      omega
  · rw [hother₃ p hout, hother₂ p hne, hother₁ p hp]

/-- The prologue and the epilogues stay when the labels are resolved. -/
theorem Finished.codeAt {w : FunctionWriterA64 (TextOp Body)}
    (h : Finished clobbered frameSize dynAlloca f f') (hs : Sites dynAlloca f)
    (hw : f'.textWriter.handleFixups = some w) :
    CodeAt w.code f'.funcStartOff
      (paddedPrologue f.funcPrologueAlloc (prologue clobbered frameSize dynAlloca)) ∧
      ∀ off ∈ f.funcRetOffs, CodeAt w.code off (epilogue clobbered frameSize dynAlloca) := by
  have hlenEpi := length_epilogue_le clobbered frameSize dynAlloca
  rw [← hs.epilogueAlloc] at hlenEpi
  have hfixups : f'.textWriter.labelFixups = f.textWriter.labelFixups := by
    obtain ⟨_, _, htext⟩ := h.text
    rw [htext]
  refine ⟨h.prologueAt.handleFixups (fun x hx => .inr ?_) hw,
    fun off hoff => (h.epilogueAt off hoff).codeAt.handleFixups (fun x hx => ?_) hw⟩
  · have := (hs.fixup x (hfixups ▸ hx)).1
    have := h.body
    omega
  · have := (hs.fixup x (hfixups ▸ hx)).2.2 off hoff
    omega

theorem addImm_finalFrameSize (hsize : finalFrameSize frameSize < 16 * 1024 * 1024) :
    AddImm (finalFrameSize frameSize) := by
  by_cases hlarge : alignUp frameSize 16 > 4095
  · refine .inr ⟨?_, by omega⟩
    simp only [finalFrameSize, if_pos hlarge]
    exact Dvd.intro_left _ rfl
  · refine .inl ?_
    simp only [finalFrameSize, if_neg hlarge]
    omega

theorem prologue_encodable (hsize : finalFrameSize frameSize < 16 * 1024 * 1024) :
    ∀ i ∈ prologue clobbered frameSize dynAlloca, i.Encodable := by
  have hlen := length_savedRegs clobbered
  refine List.forall_mem_append.mpr ⟨?_,
    saveLoop_encodable rfl (by simp only [Option.toList_none, List.length_nil]; omega)⟩
  simp only [List.forall_mem_cons]
  exact ⟨addImm_finalFrameSize hsize, ⟨rfl, by decide⟩, trivial, nofun⟩

theorem epilogue_encodable (hsize : finalFrameSize frameSize < 16 * 1024 * 1024) :
    ∀ i ∈ epilogue clobbered frameSize dynAlloca, i.Encodable := by
  have hlen := length_savedRegs clobbered
  have hldp : (FrameInst.ldpx fp lr sp 0).Encodable := ⟨rfl, by decide⟩
  have hmov : (FrameInst.save (.movSpx sp fp)).Encodable := trivial
  refine List.forall_mem_append.mpr ⟨List.forall_mem_append.mpr ⟨List.forall_mem_append.mpr ⟨?_, ?_⟩, ?_⟩, ?_⟩
  · split
    · exact List.forall_mem_singleton.mpr hmov
    · exact List.forall_mem_singleton.mpr hldp
  · exact restoreLoop_encodable rfl (by simp only [Option.toList_none, List.length_nil]; omega)
  · split
    · exact List.forall_mem_singleton.mpr hldp
    · exact nofun
  · simp only [List.forall_mem_cons]
    exact ⟨addImm_finalFrameSize hsize, trivial, nofun⟩

theorem run_paddedPrologue (alloc : ℕ) (insts : List PrologueInst) (m : Machine) :
    (paddedPrologue alloc insts).foldl FrameInst.run m = insts.foldl PrologueInst.run m := by
  rw [paddedPrologue, List.foldl_append, foldl_save, foldl_nop]

/-- The stack pointer is the frame pointer behind the prologue. -/
theorem prologue_stackPointer (m : Machine) :
    ((prologue clobbered frameSize dynAlloca).foldl PrologueInst.run m).reg sp =
    ((prologue clobbered frameSize dynAlloca).foldl PrologueInst.run m).reg fp := by
  obtain ⟨hsp, hfp, -⟩ := linkFrame_reg (finalFrameSize frameSize) m
  rw [run_prologue, reg_saveAll, hsp, hfp]

end

end Tpde.Target.A64
