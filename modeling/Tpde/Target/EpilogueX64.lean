import Tpde.Library.SaveArea
import Tpde.Target.VaStart

/-!
# Prologues and epilogues on x86-64

The prologue pushes the frame pointer, then the registers to save into room that is left for
them, and takes the frame off the stack pointer with an immediate that is filled in at the
end. `finish_func` writes one epilogue and copies it to the other returns.
-/

namespace Tpde.Target.X64

open SaveArea
open A64 (createBitmask alignUp)

/-! ### The model -/

/-- `AsmReg::SP` and `AsmReg::BP`. -/
def sp : ℕ := 4
def bp : ℕ := 5

/-- `callee_saved_regs` of `CCAssignerSysV`: BX, and R12 to R15. -/
def calleeSavedRegs : BitVec 64 := createBitmask [3, 12, 13, 14, 15]

/-- `saved_regs`, as `BitSetIterator` goes over it. -/
def savedRegs (clobbered : BitVec 64) : List ℕ := (List.range 64).filter fun reg =>
    (clobbered &&& calleeSavedRegs).getLsbD reg

/-- The instructions of prologues and epilogues. -/
inductive FrameInst where
  | pushr (reg : ℕ)
  | popr (reg : ℕ)
  | movrr (dst src : ℕ)
  | subri (dst imm : ℕ)
  | addri (dst imm : ℕ)
  | learm (dst base : ℕ) (disp : ℤ)
  | nop (size : ℕ)
  | ret
  deriving DecidableEq

/-- The bytes of an instruction. The immediate of the subtraction has four bytes, since it is filled in
later. -/
def FrameInst.size : FrameInst → ℕ
  | pushr reg | popr reg => if reg < 8 then 1 else 2
  | movrr .. => 3
  | subri .. => 7
  | addri _ imm => if imm < 128 then 4 else 7
  | learm _ _ disp => if -128 ≤ disp ∧ disp < 128 then 4 else 7
  | nop size => size
  | ret => 1

def sizeOf (insts : List FrameInst) : ℕ := (insts.map FrameInst.size).sum

/-- A byte of text: the first one of an instruction of a prologue or an epilogue, another one of such an
instruction, or one of the body. -/
inductive Cell (Body : Type) where
  | start (i : FrameInst)
  | inside
  | body (b : Body)

variable {Body : Type}

/-- An instruction that is written at an offset. -/
def writeInst (code : ℕ → Cell Body) (off : ℕ) (i : FrameInst) (p : ℕ) : Cell Body :=
  if off ≤ p ∧ p < off + i.size then if p = off then .start i else .inside else code p

def writeInsts (code : ℕ → Cell Body) (off : ℕ) : List FrameInst → ℕ → Cell Body
  | [] => code
  | i :: is => writeInsts (writeInst code off i) (off + i.size) is

/-- Bytes that are copied. -/
def copyText (code : ℕ → Cell Body) (dst src size : ℕ) (p : ℕ) : Cell Body :=
  if dst ≤ p ∧ p < dst + size then code (src + (p - dst)) else code p

/-- A function that is being compiled. -/
structure Func (Body : Type) where
  code : ℕ → Cell Body
  offset : ℕ
  funcStartOff : ℕ
  funcRegSaveOff : ℕ
  funcRegSaveAlloc : ℕ
  funcRegRestoreAlloc : ℕ
  frameSizeSetupOffset : ℕ
  funcRetOffs : List ℕ

/-- The bytes for the pushes of all registers that may be saved; those from R8 on need a prefix. -/
def regSaveSize : ℕ := 1 * popcount (calleeSavedRegs &&& 0xff) + 2 * popcount (calleeSavedRegs >>> 8 &&& 0xff)

/-- `stack.frame_size` when a function starts. -/
def startFrameSize : ℕ :=
  8 * (popcount (calleeSavedRegs &&& 0xff) + popcount (calleeSavedRegs >>> 8 &&& 0xff))

/-- `gen_func_prolog_and_args`, before the arguments. -/
def genFuncProlog (code : ℕ → Cell Body) (offset : ℕ) : Func Body :=
  let setup := [FrameInst.pushr bp, .movrr bp sp]
  let regSaveOff := offset + sizeOf setup
  let subOff := regSaveOff + regSaveSize
  { code := writeInsts (writeInsts code offset setup) subOff [.subri sp 0x7FFFFFFF]
    offset := subOff + sizeOf [.subri sp 0x7FFFFFFF]
    funcStartOff := offset
    funcRegSaveOff := regSaveOff
    funcRegSaveAlloc := regSaveSize
    funcRegRestoreAlloc := regSaveSize
    frameSizeSetupOffset := subOff
    funcRetOffs := [] }

/-- `epilogue_size`: add, pop, ret and the pops of the saved registers. -/
def Func.epilogueSize (f : Func Body) : ℕ := 7 + 1 + 1 + f.funcRegRestoreAlloc

/-- What is written between the prologue and the end of a function. -/
inductive FuncCall (Body : Type) where
  | text (bytes : List Body)
  | genFuncEpilog

def FuncCall.exec (f : Func Body) : FuncCall Body → Func Body
  | text bytes => { f with
      code := fun p => if f.offset ≤ p then ((bytes[p - f.offset]?).map Cell.body).getD (f.code p)
        else f.code p
      offset := f.offset + bytes.length }
  | genFuncEpilog => { f with
    offset := f.offset + f.epilogueSize, funcRetOffs := f.funcRetOffs ++ [f.offset] }

/-- `final_frame_size`. -/
def finalFrameSize (clobbered : BitVec 64) (frameSize : ℕ) : ℕ :=
  alignUp frameSize 16 - (savedRegs clobbered).length * 8

/-- The epilogue. -/
def epilogue (clobbered : BitVec 64) (frameSize : ℕ) (dynAlloca : Bool) : List FrameInst :=
  let numSavedRegs := (savedRegs clobbered).length
  (if dynAlloca then if numSavedRegs = 0 then [.movrr sp bp] else [.learm sp bp (-numSavedRegs * 8)]
    else [.addri sp (finalFrameSize clobbered frameSize)]) ++
    (savedRegs clobbered).reverse.map .popr ++ [.popr bp, .ret]

/-- Instructions, and one that does nothing in the rest of their room. -/
def padded (room : ℕ) (insts : List FrameInst) : List FrameInst :=
  insts ++ if room - sizeOf insts = 0 then [] else [.nop (room - sizeOf insts)]

/-- The part of `finish_func` that writes the epilogues, and cuts off what the last one does not need. -/
def Func.finishEpilogues (f : Func Body) (insts : List FrameInst) : Option (Func Body) :=
  match f.funcRetOffs with
  | [] => some f
  | first :: rest =>
    if sizeOf insts ≤ f.epilogueSize then
      let code := writeInsts f.code first (padded f.epilogueSize insts)
      let ends := (first :: rest).countP (· = f.offset - f.epilogueSize)
      some { f with
        code := rest.foldl (fun code off => copyText code off first f.epilogueSize) code
        offset := f.offset - ends * (f.epilogueSize - sizeOf insts) }
    else none

/-- `finish_func`, as far as it writes text. The immediate is read back with its sign. -/
def Func.finishFunc (f : Func Body) (clobbered : BitVec 64) (frameSize : ℕ) (dynAlloca : Bool) :
    Option (Func Body) :=
  let pushes := (savedRegs clobbered).map .pushr
  let size := finalFrameSize clobbered frameSize
  if size < 2 ^ 31 ∧ sizeOf pushes ≤ f.funcRegSaveAlloc then
    let code := writeInsts f.code f.funcRegSaveOff (padded f.funcRegSaveAlloc pushes)
    { f with
      code := writeInsts code f.frameSizeSetupOffset [.subri sp size] }.finishEpilogues
        (epilogue clobbered frameSize dynAlloca)
  else none

/-! ### What the instructions do -/

def FrameInst.run (m : Machine) : FrameInst → Machine
  | pushr reg => (m.store (m.reg sp - 8) (m.reg reg)).setReg sp (m.reg sp - 8)
  | popr reg => (m.setReg sp (m.reg sp + 8)).setReg reg (m.load (m.reg sp))
  | movrr dst src => m.setReg dst (m.reg src)
  | subri dst imm => m.setReg dst (m.reg dst - BitVec.ofNat 64 imm)
  | addri dst imm => m.setReg dst (m.reg dst + BitVec.ofNat 64 imm)
  | learm dst base disp => m.setReg dst (m.reg base + BitVec.ofInt 64 disp)
  | nop _ => m
  | ret => { m.setReg sp (m.reg sp + 8) with pc := m.load (m.reg sp) }

/-- The body of a function keeps what the prologue pushed and the return address, the frame pointer and
the registers that are not clobbered; without dynamic allocas it also leaves the stack pointer where it
found it. -/
structure BodyKeeps (clobbered : BitVec 64) (dynAlloca : Bool) (m m' : Machine) : Prop where
  framePointer : m'.reg bp = m.reg bp
  stackPointer : dynAlloca = false → m'.reg sp = m.reg sp
  regs : ∀ reg, calleeSavedRegs.getLsbD reg = true → clobbered.getLsbD reg = false → m'.reg reg = m.reg reg
  area :
    Untouched m m' (m.reg bp - BitVec.ofNat 64 ((savedRegs clobbered).length * 8))
    ((savedRegs clobbered).length * 8 + 16)

/-- A function returns to the return address, takes it off the stack, and has the registers that it was
called with. -/
structure Returns (m m' : Machine) : Prop where
  stackPointer : m'.reg sp = m.reg sp + 8
  framePointer : m'.reg bp = m.reg bp
  pc : m'.pc = m.load (m.reg sp)
  regs : ∀ reg, calleeSavedRegs.getLsbD reg = true → m'.reg reg = m.reg reg

/-- Instructions are in the text. -/
def CodeAt (code : ℕ → Cell Body) : ℕ → List FrameInst → Prop
  | _, [] => True
  | off, i :: is => (∀ j < i.size, code (off + j) = if j = 0 then .start i else .inside) ∧
    CodeAt code (off + i.size) is

/-- The prologue of a function leads to its body, and an epilogue at every return undoes it. Labels are
resolved in the body only. -/
def Func.Undone (f : Func Body) (clobbered : BitVec 64) (frameSize : ℕ) (dynAlloca : Bool) : Prop :=
  ∃ f' pro epi, f.finishFunc clobbered frameSize dynAlloca = some f' ∧
    f.funcStartOff + sizeOf pro = f.frameSizeSetupOffset + sizeOf [.subri sp 0] ∧
    (∀ code, (∀ p, (∀ b, f'.code p ≠ .body b) → code p = f'.code p) →
      CodeAt code f.funcStartOff pro ∧ ∀ off ∈ f.funcRetOffs, CodeAt code off epi) ∧
    ∀ m m', BodyKeeps clobbered dynAlloca (pro.foldl FrameInst.run m) m' →
      Returns m (epi.foldl FrameInst.run m')

/-! ### The text -/

section
variable {code code' : ℕ → Cell Body} {off : ℕ} {insts insts' : List FrameInst}

@[simp] theorem sizeOf_nil : sizeOf [] = 0 := rfl

@[simp] theorem sizeOf_cons (i : FrameInst) (is : List FrameInst) :
    sizeOf (i :: is) = i.size + sizeOf is := by simp [sizeOf]

@[simp] theorem sizeOf_append (is is' : List FrameInst) :
    sizeOf (is ++ is') = sizeOf is + sizeOf is' := by simp [sizeOf]

theorem sizeOf_padded {room : ℕ} (h : sizeOf insts ≤ room) : sizeOf (padded room insts) = room := by
  rw [padded, sizeOf_append]
  split
  · simp only [sizeOf_nil]
    omega
  · simp only [sizeOf_cons, FrameInst.size, sizeOf_nil]
    omega

/-- The instructions are where the same bytes are. -/
theorem CodeAt.of_eq {off' : ℕ} (h : CodeAt code off insts)
    (heq : ∀ j < sizeOf insts, code' (off' + j) = code (off + j)) :
    CodeAt code' off' insts := by
  induction insts generalizing off off' with
  | nil => trivial
  | cons i is ih =>
    obtain ⟨hi, his⟩ := h
    rw [sizeOf_cons] at heq
    refine ⟨fun j hj => (heq j (by omega)).trans (hi j hj), ih his fun j hj => ?_⟩
    rw [Nat.add_assoc, heq _ (by omega), Nat.add_assoc]

theorem CodeAt.congr (h : CodeAt code off insts) (heq : ∀ p, off ≤ p → p < off + sizeOf insts →
    code' p = code p) :
    CodeAt code' off insts := h.of_eq fun j hj => heq _ (by omega) (by omega)

theorem CodeAt.append (h : CodeAt code off insts) (h' : CodeAt code (off + sizeOf insts) insts') :
    CodeAt code off (insts ++ insts') := by
  induction insts generalizing off with
  | nil => exact h'
  | cons i is ih =>
    refine ⟨h.1, ih h.2 ?_⟩
    rwa [sizeOf_cons, ← Nat.add_assoc] at h'

theorem CodeAt.left (h : CodeAt code off (insts ++ insts')) : CodeAt code off insts := by
  induction insts generalizing off with
  | nil => trivial
  | cons i is ih => exact ⟨h.1, ih h.2⟩

/-- No byte of the instructions is one of the body. -/
theorem CodeAt.ne_body (h : CodeAt code off insts) : ∀ j < sizeOf insts, ∀ b, code (off + j) ≠ .body b := by
  induction insts generalizing off with
  | nil => exact fun j hj => absurd hj (Nat.not_lt_zero j)
  | cons i is ih =>
    obtain ⟨hi, his⟩ := h
    intro j hj b
    rw [sizeOf_cons] at hj
    by_cases hlt : j < i.size
    · rw [hi j hlt]
      split <;> nofun
    · have hne := ih his (j - i.size) (by omega) b
      have heq : off + i.size + (j - i.size) = off + j := by omega
      rwa [heq] at hne

theorem writeInsts_of_not_mem {p : ℕ} (h : p < off ∨ off + sizeOf insts ≤ p) :
    writeInsts code off insts p = code p := by
  induction insts generalizing code off with
  | nil => rfl
  | cons i is ih =>
    rw [sizeOf_cons] at h
    rw [writeInsts, ih (by omega), writeInst, if_neg (by omega)]

theorem codeAt_writeInsts (code : ℕ → Cell Body) (off : ℕ) (insts : List FrameInst) :
    CodeAt (writeInsts code off insts) off insts := by
  induction insts generalizing code off with
  | nil => trivial
  | cons i is ih =>
    refine ⟨fun j hj => ?_, ih ..⟩
    rw [writeInsts, writeInsts_of_not_mem (.inl (by omega)), writeInst, if_pos (by omega)]
    by_cases hj0 : j = 0
    · rw [if_pos hj0, if_pos (by omega)]
    · rw [if_neg hj0, if_neg (by omega)]

/-- The first epilogue is copied to all other returns. -/
theorem copies {first size : ℕ} : ∀ {rest : List ℕ} {code : ℕ → Cell Body},
    (∀ off ∈ rest, first + size ≤ off) →
    rest.Pairwise (fun off off' => off + size ≤ off') →
    (∀ p, (∀ off ∈ rest, p < off ∨ off + size ≤ p) →
      rest.foldl (fun code off => copyText code off first size) code p = code p) ∧
    ∀ off ∈ rest, ∀ j < size, rest.foldl (fun code off => copyText code off first size) code (off + j) =
      code (first + j)
  | [], code, _, _ => ⟨fun _ _ => rfl, nofun⟩
  | off :: rest, code, hfirst, hapart => by
    obtain ⟨hoff, hapart⟩ := List.pairwise_cons.mp hapart
    obtain ⟨hle, hfirst⟩ := List.forall_mem_cons.mp hfirst
    obtain ⟨hother, hcopy⟩ := @copies first size rest (copyText code off first size) hfirst hapart
    have hcell {p : ℕ} (hp : p < off ∨ off + size ≤ p) : copyText code off first size p = code p :=
      if_neg (by omega)
    refine ⟨fun p hp => ?_, List.forall_mem_cons.mpr ⟨fun j hj => ?_, fun off' hoff' j hj => ?_⟩⟩
    · obtain ⟨hp, hrest⟩ := List.forall_mem_cons.mp hp
      rw [List.foldl_cons, hother p hrest, hcell hp]
    · rw [List.foldl_cons, hother _ fun off' hoff' => .inl ?_]
      · rw [copyText, if_pos (by omega), Nat.add_sub_cancel_left]
      · have := hoff off' hoff'
        omega
    · rw [List.foldl_cons, hcopy off' hoff' j hj, hcell (.inl (by omega))]

end

/-! ### The room for the instructions -/

theorem regSaveSize_eq : regSaveSize = 9 := by decide +kernel

theorem startFrameSize_eq : startFrameSize = 40 := by decide +kernel

theorem mem_savedRegs {clobbered : BitVec 64} {reg : ℕ} :
    reg ∈ savedRegs clobbered ↔ clobbered.getLsbD reg = true ∧ calleeSavedRegs.getLsbD reg = true := by
  rw [savedRegs, List.mem_filter, List.mem_range, BitVec.getLsbD_and, Bool.and_eq_true]
  exact ⟨fun h => h.2, fun h => ⟨BitVec.lt_of_getLsbD h.1, h⟩⟩

theorem calleeSaved_cases {reg : ℕ} (h : calleeSavedRegs.getLsbD reg = true) : reg ∈ [3, 12, 13, 14, 15] := by
  have hall : ∀ reg < 64, calleeSavedRegs.getLsbD reg = true → reg ∈ [3, 12, 13, 14, 15] := by decide +kernel
  exact hall reg (BitVec.lt_of_getLsbD h) h

theorem calleeSaved_ne {reg : ℕ} (h : calleeSavedRegs.getLsbD reg = true) : reg ≠ sp ∧ reg ≠ bp := by
  have := calleeSaved_cases h
  simp only [List.mem_cons, List.not_mem_nil, or_false] at this
  unfold sp bp
  omega

theorem savedRegs_sublist (clobbered : BitVec 64) :
    List.Sublist (savedRegs clobbered) [3, 12, 13, 14, 15] := by
  have hall :
    ((List.range 64).filter fun reg => calleeSavedRegs.getLsbD reg) = [3, 12, 13, 14, 15] := by decide +kernel
  rw [← hall]
  refine List.monotone_filter_right _ fun reg h => ?_
  rw [BitVec.getLsbD_and, Bool.and_eq_true] at h
  exact h.2

theorem nodup_savedRegs (clobbered : BitVec 64) : (savedRegs clobbered).Nodup := List.nodup_range.filter _

theorem length_savedRegs (clobbered : BitVec 64) : (savedRegs clobbered).length ≤ 5 :=
  (savedRegs_sublist clobbered).length_le

/-- What pushes take, and pops. -/
theorem sizeOf_pushes (clobbered : BitVec 64) : sizeOf ((savedRegs clobbered).map .pushr) ≤ 9 ∧
    sizeOf ((savedRegs clobbered).reverse.map .popr) = sizeOf ((savedRegs clobbered).map .pushr) := by
  constructor
  · rw [sizeOf, List.map_map]
    exact (((savedRegs_sublist clobbered).map _).sum_le_sum fun _ _ => Nat.zero_le _).trans (by decide)
  · rw [sizeOf, sizeOf, List.map_map, List.map_map, List.map_reverse, List.sum_reverse]
    rfl

/-! ### Prologues and epilogues -/

section
variable {clobbered : BitVec 64} {frameSize : ℕ} {dynAlloca : Bool} {m m' : Machine}
    {base off : BitVec 64} {regs : List ℕ}

/-- The next slot down. -/
theorem sub_eight_sub (off : BitVec 64) (n : ℕ) :
    off - 8 - BitVec.ofNat 64 (n * 8) = off - BitVec.ofNat 64 ((n + 1) * 8) := by
  rw [Nat.add_mul, BitVec.ofNat_add]
  generalize BitVec.ofNat 64 (n * 8) = k
  bv_omega

/-- The pushes store the registers below each other. -/
theorem run_pushes (hregs : ∀ reg ∈ regs, reg ≠ sp) (hsp : m.reg sp = base + off) :
    (regs.map FrameInst.pushr).foldl FrameInst.run m =
    (saveAll base (slotsFrom (-8) (off - 8) regs) m).setReg sp
      (base + (off - BitVec.ofNat 64 (regs.length * 8))) := by
  induction regs generalizing m off with
  | nil =>
    refine (Machine.setReg_of_eq m ?_).symm
    rw [List.length_nil, Nat.zero_mul, hsp, BitVec.sub_zero]
  | cons reg regs ih =>
    obtain ⟨-, hrest⟩ := List.forall_mem_cons.mp hregs
    have hpush :
      FrameInst.run m (.pushr reg) =
      (m.store (base + (off - 8)) (m.reg reg)).setReg sp (base + (off - 8)) := by
      have h : base + off - 8 = base + (off - 8) := by
        rw [BitVec.sub_eq_add_neg, BitVec.sub_eq_add_neg, BitVec.add_assoc]
      rw [FrameInst.run, hsp, h]
    have hne : ∀ x ∈ slotsFrom (-8) (off - 8 - 8) regs, x.1 ≠ sp := fun x hx => hrest _ (by
      rw [← @map_fst_slotsFrom (-8) (off - 8 - 8) regs]
      exact List.mem_map_of_mem hx)
    rw [List.map_cons, List.foldl_cons, hpush, ih hrest (Machine.setReg_self ..), saveAll_setReg hne,
      Machine.setReg_setReg, sub_eight_sub,
      slotsFrom, saveAll_cons, ← BitVec.sub_eq_add_neg, List.length_cons]

/-- What pops of registers do that were pushed. -/
structure Popped (base off : BitVec 64) (regs : List ℕ) (m m' : Machine) : Prop where
  stackPointer : m'.reg sp = base + (off + 8)
  loaded : ∀ x ∈ slotsFrom (-8) off regs, m'.reg x.1 = m.load (base + x.2)
  others : ∀ reg, reg ≠ sp → reg ∉ regs → m'.reg reg = m.reg reg
  mem : m'.mem = m.mem

theorem popped (hregs : ∀ reg ∈ regs, reg ≠ sp) (hnodup : regs.Nodup)
    (hsp : m.reg sp = base + (off + 8 - BitVec.ofNat 64 (regs.length * 8))) :
    Popped base off regs m ((regs.reverse.map FrameInst.popr).foldl FrameInst.run m) := by
  induction regs generalizing off with
  | nil =>
    refine ⟨?_, nofun, fun _ _ _ => rfl, rfl⟩
    rw [List.length_nil, Nat.zero_mul] at hsp
    exact hsp.trans (by rw [BitVec.sub_zero])
  | cons reg regs ih =>
    obtain ⟨hreg, hrest⟩ := List.forall_mem_cons.mp hregs
    obtain ⟨hnot, hnodup⟩ := List.nodup_cons.mp hnodup
    have hstart : m.reg sp = base + (off + -8 + 8 - BitVec.ofNat 64 (regs.length * 8)) := by
      rw [hsp, List.length_cons, ← sub_eight_sub, ← BitVec.sub_eq_add_neg, BitVec.add_sub_cancel,
        BitVec.sub_add_cancel]
    obtain ⟨hsp₁, hloaded, hothers, hmem⟩ := ih hrest hnodup hstart
    rw [List.reverse_cons, List.map_append, List.foldl_append]
    set m₁ := (regs.reverse.map FrameInst.popr).foldl FrameInst.run m
    have hload (a : BitVec 64) : m₁.load a = m.load a := by rw [Machine.load, Machine.load, hmem]
    have hsp₁ : m₁.reg sp = base + off := by
      rw [hsp₁, ← BitVec.sub_eq_add_neg, BitVec.sub_add_cancel]
    have hpop : [FrameInst.popr reg].foldl FrameInst.run m₁ =
      (m₁.setReg sp (base + off + 8)).setReg reg (m.load (base + off)) := by
      rw [List.foldl_cons, List.foldl_nil, FrameInst.run, hsp₁, hload]
    rw [List.map_cons, List.map_nil, hpop]
    refine ⟨?_, List.forall_mem_cons.mpr ⟨Machine.setReg_self .., fun x hx => ?_⟩,
      fun reg' hsp' hreg' => ?_, hmem⟩
    · rw [Machine.setReg_of_ne _ hreg.symm, Machine.setReg_self, BitVec.add_assoc]
    · have hx' : x.1 ∈ regs := by
        rw [← @map_fst_slotsFrom (-8) (off + -8) regs]
        exact List.mem_map_of_mem hx
      have hne : x.1 ≠ reg := fun heq => hnot (heq ▸ hx')
      rw [Machine.setReg_of_ne _ hne, Machine.setReg_of_ne _ (hrest _ hx'), hloaded x hx]
    · obtain ⟨hne, hreg'⟩ := not_or.mp fun h => hreg' (List.mem_cons.mpr h)
      rw [Machine.setReg_of_ne _ hne, Machine.setReg_of_ne _ hsp', hothers reg' hsp' hreg']

/-- The slots of the registers below the frame pointer. -/
abbrev saveSlots (clobbered : BitVec 64) : List (ℕ × BitVec 64) := slotsFrom (-8) (-8) (savedRegs clobbered)

theorem mem_savedRegs_of_mem_saveSlots {x : ℕ × BitVec 64} (h : x ∈ saveSlots clobbered) :
    x.1 ∈ savedRegs clobbered := by
  rw [← @map_fst_slotsFrom (-8) (-8) (savedRegs clobbered)]
  exact List.mem_map_of_mem h

/-- What memory and the registers have while the frame of a function is there. -/
structure Framed (clobbered : BitVec 64) (m m' : Machine) : Prop where
  framePointer : m'.reg bp = m.reg sp - 8
  regs : ∀ reg, calleeSavedRegs.getLsbD reg = true → clobbered.getLsbD reg = false → m'.reg reg = m.reg reg
  callerFrame : m'.load (m.reg sp - 8) = m.reg bp
  callerLink : m'.load (m.reg sp) = m.load (m.reg sp)
  saved : ∀ x ∈ saveSlots clobbered, m'.load (m.reg sp - 8 + x.2) = m.reg x.1

/-- The instructions of the prologue. -/
def prologue (clobbered : BitVec 64) (frameSize : ℕ) : List FrameInst :=
  [.pushr bp, .movrr bp sp] ++ padded regSaveSize ((savedRegs clobbered).map .pushr) ++
    [.subri sp (finalFrameSize clobbered frameSize)]

theorem foldl_padded (room : ℕ) (insts : List FrameInst) (m : Machine) :
    (padded room insts).foldl FrameInst.run m = insts.foldl FrameInst.run m := by
  rw [padded, List.foldl_append]
  split <;> rfl

/-- The frame pointer of the caller. -/
def linkFrame (m : Machine) : Machine := [FrameInst.pushr bp, .movrr bp sp].foldl FrameInst.run m

theorem linkFrame_reg (m : Machine) : (linkFrame m).reg sp = m.reg sp - 8 ∧
    (linkFrame m).reg bp = m.reg sp - 8 ∧
    ∀ reg, reg ≠ sp → reg ≠ bp → (linkFrame m).reg reg = m.reg reg := by
  refine ⟨rfl, rfl, fun reg hsp hbp => ?_⟩
  simp only [linkFrame, List.foldl_cons, List.foldl_nil, FrameInst.run]
  rw [Machine.setReg_of_ne _ hbp, Machine.setReg_of_ne _ hsp, Machine.reg_store]

theorem linkFrame_load (m : Machine) : (linkFrame m).load (m.reg sp - 8) = m.reg bp ∧
    (linkFrame m).load (m.reg sp) = m.load (m.reg sp) := by
  simp only [linkFrame, List.foldl_cons, List.foldl_nil, FrameInst.run, Machine.load_setReg]
  refine ⟨Machine.load_store .., ?_⟩
  have happart : Apart (-8) 0#64 := by constructor <;> decide
  have h := @load_store_of_apart m (m.reg sp) _ _ happart (m.reg bp)
  rwa [BitVec.add_zero, ← BitVec.sub_eq_add_neg] at h

theorem saved_ne {reg : ℕ} (h : reg ∈ savedRegs clobbered) : reg ≠ sp ∧ reg ≠ bp :=
  calleeSaved_ne (mem_savedRegs.mp h).2

theorem run_prologue (m : Machine) : (prologue clobbered frameSize).foldl FrameInst.run m =
    (saveAll (m.reg sp - 8) (saveSlots clobbered) (linkFrame m)).setReg sp
      (m.reg sp - 8 - BitVec.ofNat 64 ((savedRegs clobbered).length * 8) - BitVec.ofNat 64
        (finalFrameSize clobbered frameSize)) := by
  have hpushes :=
    @run_pushes (linkFrame m) (m.reg sp - 8) 0#64 (savedRegs clobbered) (fun reg hreg => (saved_ne hreg).1)
    ((linkFrame_reg m).1.trans (BitVec.add_zero _).symm)
  rw [prologue, List.foldl_append, List.foldl_append, ← linkFrame, foldl_padded, hpushes,
    List.foldl_cons, List.foldl_nil, FrameInst.run,
    Machine.setReg_setReg, Machine.setReg_self, BitVec.zero_sub, BitVec.zero_sub, ← BitVec.sub_eq_add_neg]

/-- **The prologue makes the frame.** -/
theorem framed_prologue (m : Machine) :
    Framed clobbered m ((prologue clobbered frameSize).foldl FrameInst.run m) := by
  obtain ⟨-, hbp, hregs⟩ := linkFrame_reg m
  obtain ⟨hframe, hlink⟩ := linkFrame_load m
  have hlen := length_savedRegs clobbered
  have happart : ∀ x ∈ saveSlots clobbered, Apart x.2 0#64 ∧ Apart x.2 8 := fun x hx => by
    obtain ⟨k, hk, heq⟩ := mem_slotsFrom hx
    have hk' : k < 2 ^ 32 := by omega
    rw [heq, BitVec.mul_neg]
    constructor <;> constructor <;> bv_omega
  rw [run_prologue]
  refine ⟨?_, fun reg hreg _ => ?_, ?_, ?_, fun x hx => ?_⟩
  · rw [Machine.setReg_of_ne _ (by decide), reg_saveAll, hbp]
  · obtain ⟨hsp', hbp'⟩ := calleeSaved_ne hreg
    rw [Machine.setReg_of_ne _ hsp', reg_saveAll, hregs _ hsp' hbp']
  · have h := @load_saveAll_of_apart (linkFrame m) (m.reg sp - 8) _ 0#64 fun x hx => (happart x hx).1
    rw [BitVec.add_zero, hframe] at h
    exact h
  · have h := @load_saveAll_of_apart (linkFrame m) (m.reg sp - 8) _ 8 fun x hx => (happart x hx).2
    rw [BitVec.sub_add_cancel, hlink] at h
    exact h
  · obtain ⟨hsp', hbp'⟩ := saved_ne (mem_savedRegs_of_mem_saveSlots hx)
    rw [Machine.load_setReg, load_saveAll (apart_slotsFrom (.inr rfl) (by omega)) x hx, hregs _ hsp' hbp']

/-- The slots from the end of the save area. -/
theorem slot_above {a : BitVec 64} {n k : ℕ} (hk : k < n) :
    a - BitVec.ofNat 64 (n * 8) + BitVec.ofNat 64 ((n - 1 - k) * 8) =
      a + (-8 + -(BitVec.ofNat 64 k * 8)) := by
  bv_omega

/-- The body of a function keeps the frame. -/
theorem Framed.body {m'' : Machine} (h : Framed clobbered m m')
    (hbody : BodyKeeps clobbered dynAlloca m' m'') :
    Framed clobbered m m'' := by
  obtain ⟨hbp, hregs, hframe, hlink, hsaved⟩ := h
  have harea := hbody.area
  rw [hbp] at harea
  have hload {k : ℕ} {a : BitVec 64} (hk : k + 8 ≤ (savedRegs clobbered).length * 8 + 16)
      (ha : m.reg sp - 8 - BitVec.ofNat 64 ((savedRegs clobbered).length * 8) + BitVec.ofNat 64 k = a) :
        m''.load a = m'.load a := by
    rw [← ha]
    exact harea.load hk
  refine ⟨by rw [hbody.framePointer, hbp], fun reg hreg hclob => ?_, ?_, ?_, fun x hx => ?_⟩
  · rw [hbody.regs reg hreg hclob, hregs reg hreg hclob]
  · rw [hload (by omega) (BitVec.sub_add_cancel ..), hframe]
  · have haddr : m.reg sp - 8 - BitVec.ofNat 64 ((savedRegs clobbered).length * 8) + BitVec.ofNat 64
      ((savedRegs clobbered).length * 8 + 8) =
        m.reg sp := by
      rw [BitVec.ofNat_add, ← BitVec.add_assoc, BitVec.sub_add_cancel]
      exact BitVec.sub_add_cancel ..
    rw [hload (by omega) haddr, hlink]
  · obtain ⟨k, hk, heq⟩ := mem_slotsFrom hx
    have haddr : m.reg sp - 8 - BitVec.ofNat 64 ((savedRegs clobbered).length * 8) +
        BitVec.ofNat 64 (((savedRegs clobbered).length - 1 - k) * 8) = m.reg sp - 8 + x.2 := by
      rw [heq, BitVec.mul_neg]
      exact slot_above hk
    rw [hload (by omega) haddr, hsaved x hx]

theorem prologue_stackPointer (m : Machine) : ((prologue clobbered frameSize).foldl FrameInst.run m).reg sp =
    m.reg sp - 8 - BitVec.ofNat 64 ((savedRegs clobbered).length * 8) - BitVec.ofNat 64
      (finalFrameSize clobbered frameSize) := by
  rw [run_prologue, Machine.setReg_self]

/-- The first instruction of an epilogue. -/
def dropFrame (clobbered : BitVec 64) (frameSize : ℕ) (dynAlloca : Bool) : FrameInst :=
  if dynAlloca then
    if (savedRegs clobbered).length = 0 then .movrr sp bp
      else .learm sp bp (-((savedRegs clobbered).length : ℤ) * 8)
  else .addri sp (finalFrameSize clobbered frameSize)

theorem epilogue_eq : epilogue clobbered frameSize dynAlloca =
    dropFrame clobbered frameSize dynAlloca ::
      ((savedRegs clobbered).reverse.map .popr ++ [.popr bp, .ret]) := by
  rw [epilogue, dropFrame]
  cases dynAlloca with
  | false => rfl
  | true =>
    by_cases hlen : (savedRegs clobbered).length = 0
    · simp only [if_true, if_pos hlen, List.cons_append, List.nil_append]
    · simp only [if_true, if_neg hlen, List.cons_append, List.nil_append]

/-- It leaves the stack pointer at the registers that were pushed. -/
theorem run_dropFrame (hbp : m.reg bp = base)
    (hsp : dynAlloca = false →
      m.reg sp = base - BitVec.ofNat 64 ((savedRegs clobbered).length * 8) - BitVec.ofNat 64
        (finalFrameSize clobbered frameSize)) :
    (dropFrame clobbered frameSize dynAlloca).run m =
      m.setReg sp (base - BitVec.ofNat 64 ((savedRegs clobbered).length * 8)) := by
  cases dynAlloca with
  | false =>
    rw [dropFrame, if_neg Bool.false_ne_true, FrameInst.run, hsp rfl, BitVec.sub_add_cancel]
  | true =>
    rw [dropFrame, if_pos rfl]
    by_cases hlen : (savedRegs clobbered).length = 0
    · rw [if_pos hlen, FrameInst.run, hbp, hlen, Nat.zero_mul, BitVec.sub_zero]
    · have hdisp : BitVec.ofInt 64 (-((savedRegs clobbered).length : ℤ) * 8) =
        -BitVec.ofNat 64 ((savedRegs clobbered).length * 8) := by
        rw [Int.neg_mul, BitVec.ofInt_neg, ← BitVec.ofInt_natCast, Nat.cast_mul, Nat.cast_ofNat]
      rw [if_neg hlen, FrameInst.run, hbp, hdisp, ← BitVec.sub_eq_add_neg]

/-- **An epilogue returns** from the frame. -/
theorem Framed.returns (h : Framed clobbered m m')
    (hsp : dynAlloca = false → m'.reg sp =
      m.reg sp - 8 - BitVec.ofNat 64 ((savedRegs clobbered).length * 8) - BitVec.ofNat 64
        (finalFrameSize clobbered frameSize)) :
    Returns m ((epilogue clobbered frameSize dynAlloca).foldl FrameInst.run m') := by
  rw [epilogue_eq, List.foldl_cons, run_dropFrame h.framePointer hsp, List.foldl_append]
  set m₁ := m'.setReg sp (m.reg sp - 8 - BitVec.ofNat 64 ((savedRegs clobbered).length * 8)) with hm₁
  have hm₁reg {reg : ℕ} (hreg : reg ≠ sp) : m₁.reg reg = m'.reg reg := m'.setReg_of_ne hreg _
  have hm₁sp : m₁.reg sp = m.reg sp - 8 + (-8 + 8 - BitVec.ofNat 64 ((savedRegs clobbered).length * 8)) := by
    rw [hm₁, Machine.setReg_self, show (-8 + 8 : BitVec 64) = 0#64 from rfl, BitVec.zero_sub,
      ← BitVec.sub_eq_add_neg]
  obtain ⟨hsp₂, hloaded, hothers, hmem⟩ :=
    popped (fun reg hreg => (saved_ne hreg).1) (nodup_savedRegs clobbered) hm₁sp
  set m₂ := ((savedRegs clobbered).reverse.map FrameInst.popr).foldl FrameInst.run m₁
  have hsp₂ : m₂.reg sp = m.reg sp - 8 := hsp₂.trans (BitVec.add_zero _)
  have hload (a : BitVec 64) : m₂.load a = m'.load a := by
    rw [Machine.load, Machine.load, hmem]
    rfl
  have hrun : [FrameInst.popr bp, .ret].foldl FrameInst.run m₂ =
      { ((m₂.setReg sp (m.reg sp)).setReg bp (m.reg bp)).setReg sp (m.reg sp + 8) with
        pc := m.load (m.reg sp) } := by
    have hpop : FrameInst.run m₂ (.popr bp) = (m₂.setReg sp (m.reg sp)).setReg bp (m.reg bp) := by
      rw [FrameInst.run, hsp₂, BitVec.sub_add_cancel, hload, h.callerFrame]
    have hsp₃ : ((m₂.setReg sp (m.reg sp)).setReg bp (m.reg bp)).reg sp = m.reg sp := rfl
    rw [List.foldl_cons, List.foldl_cons, List.foldl_nil, hpop, FrameInst.run, hsp₃,
      Machine.load_setReg, Machine.load_setReg, hload,
      h.callerLink]
  rw [hrun]
  refine ⟨rfl, rfl, rfl, fun reg hreg => ?_⟩
  obtain ⟨hne, hne'⟩ := calleeSaved_ne hreg
  have hkeep : (((m₂.setReg sp (m.reg sp)).setReg bp (m.reg bp)).setReg sp (m.reg sp + 8)).reg reg =
    m₂.reg reg := by
    rw [Machine.setReg_of_ne _ hne, Machine.setReg_of_ne _ hne', Machine.setReg_of_ne _ hne]
  refine hkeep.trans ?_
  cases hclob : clobbered.getLsbD reg with
  | false => rw [hothers reg hne fun hmem => by simp [(mem_savedRegs.mp hmem).1] at hclob, hm₁reg hne,
    h.regs reg hreg hclob]
  | true =>
    obtain ⟨o, ho⟩ := @exists_slot (-8) (-8) _ _ (mem_savedRegs.mpr ⟨hclob, hreg⟩)
    exact (hloaded _ ho).trans (h.saved _ ho)

end

/-! ### The end of a function -/

section
variable {f f' : Func Body} {clobbered : BitVec 64} {frameSize : ℕ} {dynAlloca : Bool}

/-- Where the body of a function starts. -/
def Func.bodyOff (f : Func Body) : ℕ := f.frameSizeSetupOffset + sizeOf [.subri sp 0]

/-- The room of the prologue and the epilogues, apart from each other and from the body. -/
structure Sites (f : Func Body) : Prop where
  setup : CodeAt f.code f.funcStartOff [.pushr bp, .movrr bp sp]
  saveOff : f.funcRegSaveOff = f.funcStartOff + sizeOf [.pushr bp, .movrr bp sp]
  saveAlloc : f.funcRegSaveAlloc = regSaveSize
  restoreAlloc : f.funcRegRestoreAlloc = regSaveSize
  sizeOff : f.frameSizeSetupOffset = f.funcRegSaveOff + regSaveSize
  body : f.bodyOff ≤ f.offset
  ret : ∀ off ∈ f.funcRetOffs, f.bodyOff ≤ off ∧ off + f.epilogueSize ≤ f.offset
  apart : f.funcRetOffs.Pairwise fun off off' => off + f.epilogueSize ≤ off'

theorem Sites.exec (h : Sites f) (call : FuncCall Body) : Sites (call.exec f) := by
  obtain ⟨hsetup, hsave, halloc, hrestore, hsize, hbody, hret, hapart⟩ := h
  cases call with
  | text bytes =>
    refine ⟨hsetup.congr fun p _ hp => ?_, hsave, halloc, hrestore, hsize,
      hbody.trans (Nat.le_add_right ..), fun off hoff => ?_, hapart⟩
    · refine if_neg ?_
      have :
        f.bodyOff = f.funcStartOff + sizeOf [.pushr bp, .movrr bp sp] + regSaveSize +
        sizeOf [.subri sp 0] := by
        rw [Func.bodyOff, hsize, hsave]
      omega
    · obtain ⟨hlo, hhi⟩ := hret off hoff
      exact ⟨hlo, hhi.trans (Nat.le_add_right ..)⟩
  | genFuncEpilog =>
    refine ⟨hsetup, hsave, halloc, hrestore, hsize, hbody.trans (Nat.le_add_right ..), ?_, ?_⟩
    · refine List.forall_mem_append.mpr ⟨fun off hoff => ?_, List.forall_mem_singleton.mpr ⟨hbody, le_rfl⟩⟩
      obtain ⟨hlo, hhi⟩ := hret off hoff
      exact ⟨hlo, hhi.trans (Nat.le_add_right ..)⟩
    · refine List.pairwise_append.mpr ⟨hapart, List.pairwise_singleton _ _, fun off hoff off' hoff' => ?_⟩
      obtain rfl := List.mem_singleton.mp hoff'
      exact (hret off hoff).2

theorem Sites.run (h : Sites f) (calls : List (FuncCall Body)) : Sites (calls.foldl FuncCall.exec f) := by
  induction calls generalizing f with
  | nil => exact h
  | cons call calls ih => exact ih (h.exec call)

theorem Sites.begin (code : ℕ → Cell Body) (offset : ℕ) : Sites (genFuncProlog code offset) := by
  refine ⟨?_, rfl, rfl, rfl, rfl, le_rfl, nofun, .nil⟩
  exact (codeAt_writeInsts code offset _).congr fun p _ hp =>
    writeInsts_of_not_mem (.inl (hp.trans_le (Nat.le_add_right ..)))

/-- An epilogue fits into its room. -/
theorem sizeOf_epilogue_le (clobbered : BitVec 64) (frameSize : ℕ) (dynAlloca : Bool) :
    sizeOf (epilogue clobbered frameSize dynAlloca) ≤ 7 + 1 + 1 + regSaveSize := by
  obtain ⟨hpushes, hpops⟩ := sizeOf_pushes clobbered
  have hdrop : (dropFrame clobbered frameSize dynAlloca).size ≤ 7 := by
    rw [dropFrame]
    split
    · split
      · decide
      · rw [FrameInst.size]
        split <;> decide
    · rw [FrameInst.size]
      split <;> decide
  have hend : sizeOf [.popr bp, .ret] = 1 + 1 := rfl
  rw [epilogue_eq, sizeOf_cons, sizeOf_append, hpops, hend, regSaveSize_eq]
  omega

theorem finishEpilogues_spec {insts : List FrameInst} (hle : sizeOf insts ≤ f.epilogueSize)
    (hapart : f.funcRetOffs.Pairwise fun off off' => off + f.epilogueSize ≤ off') :
    ∃ f', f.finishEpilogues insts = some f' ∧ (∀ off ∈ f.funcRetOffs, CodeAt f'.code off insts) ∧
      ∀ p, (∀ off ∈ f.funcRetOffs, p < off ∨ off + f.epilogueSize ≤ p) → f'.code p = f.code p := by
  rw [Func.finishEpilogues]
  split
  · rename_i hnil
    exact ⟨f, rfl, by simp [hnil], fun _ _ => rfl⟩
  · rename_i first rest hcons
    rw [hcons] at hapart ⊢
    obtain ⟨hfirst, hrest⟩ := List.pairwise_cons.mp hapart
    have hsize := sizeOf_padded hle
    obtain ⟨hother, hcopy⟩ :=
      @copies _ first f.epilogueSize rest (writeInsts f.code first (padded f.epilogueSize insts)) hfirst hrest
    have hcode := codeAt_writeInsts f.code first (padded f.epilogueSize insts)
    refine ⟨_, if_pos hle, List.forall_mem_cons.mpr ⟨?_, fun off hoff => ?_⟩, fun p hp => ?_⟩
    · refine (hcode.congr fun p _ hp => hother p fun off hoff => .inl ?_).left
      have := hfirst off hoff
      omega
    · exact (hcode.of_eq fun j hj => hcopy off hoff j (hsize ▸ hj)).left
    · obtain ⟨hp, hrest⟩ := List.forall_mem_cons.mp hp
      exact (hother p hrest).trans (writeInsts_of_not_mem (by omega))

/-- `finish_func` of a frame that is small enough. -/
theorem Sites.finishFunc (h : Sites f) (hsize : finalFrameSize clobbered frameSize < 2 ^ 31) :
    ∃ f', f.finishFunc clobbered frameSize dynAlloca = some f' ∧
      CodeAt f'.code f.funcStartOff (prologue clobbered frameSize) ∧
      ∀ off ∈ f.funcRetOffs, CodeAt f'.code off (epilogue clobbered frameSize dynAlloca) := by
  obtain ⟨hsetup, hsave, halloc, hrestore, hsizeOff, -, hret, hapart⟩ := h
  have hpushes := (sizeOf_pushes clobbered).1
  rw [← regSaveSize_eq, ← halloc] at hpushes
  have hroom := sizeOf_padded hpushes
  set f₁ : Func Body := { f with
    code :=
      writeInsts
        (writeInsts f.code f.funcRegSaveOff (padded f.funcRegSaveAlloc ((savedRegs clobbered).map .pushr)))
      f.frameSizeSetupOffset [.subri sp (finalFrameSize clobbered frameSize)] } with hf₁
  have hle : sizeOf (epilogue clobbered frameSize dynAlloca) ≤ f₁.epilogueSize := by
    have := sizeOf_epilogue_le clobbered frameSize dynAlloca
    rwa [← hrestore] at this
  obtain ⟨f', hf', hepi, hother⟩ := finishEpilogues_spec hle hapart
  refine ⟨f', (if_pos ⟨hsize, hpushes⟩).trans hf', ?_, hepi⟩
  have hsub : sizeOf [.subri sp (finalFrameSize clobbered frameSize)] = sizeOf [.subri sp 0] := rfl
  have hlen : sizeOf (prologue clobbered frameSize) =
      sizeOf [.pushr bp, .movrr bp sp] + regSaveSize + sizeOf [.subri sp 0] := by
    rw [prologue, sizeOf_append, sizeOf_append, ← halloc, hroom, hsub]
  have hpro : CodeAt f₁.code f.funcStartOff (prologue clobbered frameSize) := by
    refine .append (.append ?_ ?_) ?_
    · refine hsetup.congr fun p _ hp => ?_
      rw [hf₁]
      dsimp only
      rw [writeInsts_of_not_mem (.inl (by omega)), writeInsts_of_not_mem (.inl (by omega))]
    · rw [← hsave, ← halloc]
      refine (codeAt_writeInsts ..).congr fun p _ hp => writeInsts_of_not_mem (.inl ?_)
      omega
    · rw [sizeOf_append, ← Nat.add_assoc, ← hsave, ← halloc, hroom, halloc, ← hsizeOff]
      exact codeAt_writeInsts ..
  refine hpro.congr fun p _ hp => hother p fun off hoff => .inl ?_
  have hlo := (hret off hoff).1
  rw [Func.bodyOff] at hlo
  omega

/-- **The epilogues of a function undo its prologue** if and only if its frame is smaller than 2 GiB. -/
theorem undone_iff_of_run (code : ℕ → Cell Body) (offset : ℕ) (calls : List (FuncCall Body)) :
    (calls.foldl FuncCall.exec (genFuncProlog code offset)).Undone clobbered frameSize dynAlloca ↔
      finalFrameSize clobbered frameSize < 2 ^ 31 := by
  constructor
  · rintro ⟨f', -, -, hf', -⟩
    by_contra hsize
    rw [Func.finishFunc, if_neg fun h => hsize h.1] at hf'
    cases hf'
  · intro hsize
    have h := (Sites.begin code offset).run calls
    set f := calls.foldl FuncCall.exec (genFuncProlog code offset)
    obtain ⟨f', hf', hpro, hepi⟩ := @Sites.finishFunc _ f clobbered frameSize dynAlloca h hsize
    have hroom := sizeOf_padded ((sizeOf_pushes clobbered).1.trans_eq regSaveSize_eq.symm)
    refine ⟨f', prologue clobbered frameSize, epilogue clobbered frameSize dynAlloca, hf', ?_,
      fun code hcode => ?_, fun m m' hbody => ?_⟩
    · have hsub : sizeOf [.subri sp (finalFrameSize clobbered frameSize)] = sizeOf [.subri sp 0] := rfl
      rw [prologue, sizeOf_append, sizeOf_append, hroom, hsub, h.sizeOff, h.saveOff]
      omega
    · exact ⟨hpro.of_eq fun j hj => hcode _ (hpro.ne_body j hj),
        fun off hoff => (hepi off hoff).of_eq fun j hj => hcode _ ((hepi off hoff).ne_body j hj)⟩
    · refine ((framed_prologue m).body hbody).returns fun hdyn => ?_
      rw [hbody.stackPointer hdyn, prologue_stackPointer]

end

end Tpde.Target.X64
