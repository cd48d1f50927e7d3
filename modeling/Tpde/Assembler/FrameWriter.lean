import Tpde.Assembler.Reset
import Tpde.Util.VectorWriter

/-!
# The writer of the exception frames

`eh_writer` takes room in the data of `.eh_frame` in advance, and what it does not use is cut off by
`finalize`. When a section `.eh_frame` is made, `init_sections` assigns it a writer for that, and the
assignment flushes the writer that there was before. In `reset` its vector is the data of the new
section, which is where the old one was, but its cursor is in the buffer of the old one.
-/

namespace Tpde.Assembler

open Util ElfState

/-! ### The writer -/

/-- `eh_writer`: the capacity and the size of its vector, and its `end`. The cursor is behind the bytes
of the section. -/
structure EhWriter where
  capacity : ℕ
  size : ℕ
  stop : ℕ
  deriving DecidableEq

namespace EhWriter

/-- `reserve`, with the cursor at `cur`. -/
def reserve (w : EhWriter) (cur extra : ℕ) : EhWriter :=
  if w.stop - cur < extra then
    let capacity := if w.capacity < cur + extra then calcNewCapacity w.capacity (cur + extra) else w.capacity
    ⟨capacity, capacity, capacity⟩
  else w

/-- `flush`. -/
def flush (w : EhWriter) (cur : ℕ) : EhWriter :=
  if cur ≠ w.stop then
    ⟨if w.capacity < cur then calcNewCapacity w.capacity cur else w.capacity, cur, cur⟩
  else w

/-- What `eh_align_frame` reserves. -/
def ehAlignFrame (w : EhWriter) (cur : ℕ) : EhWriter := if cur % 8 ≠ 0 then w.reserve cur 8 else w

/-- The bytes of a common entry in front of its padding. -/
def cieSize (target : TargetInfo) (personality : ℕ) : ℕ :=
  (cieHead target personality).length + (if personality = 0 then 1 else 7) + target.cieInstrs.length

/-- What `eh_init_cie` reserves. -/
def ehInitCie (target : TargetInfo) (w : EhWriter) (cur personality : ℕ) : EhWriter :=
  (w.reserve cur (32 + target.cieInstrs.length)).ehAlignFrame (cur + cieSize target personality)

/-- What `eh_begin_fde` reserves. -/
def ehBeginFde (target : TargetInfo) (w : EhWriter) (eh : EhState) (personality : ℕ) : EhWriter :=
  let size := if personality = 0 then 17 else 21
  if personality ≠ eh.curPersonalityFuncAddr then
    (w.ehInitCie target eh.data.length personality).reserve (eh.ehInitCie target personality).data.length size
  else w.reserve eh.data.length size

/-- What `eh_write_inst` reserves, with one argument and with two. -/
def ehWriteInst (w : EhWriter) (cur : ℕ) (opcode : UInt8) : EhWriter :=
  w.reserve cur (if opcode &&& dwarfCfiPrimaryOpcodeMask ≠ 0 then 1 else 11)

def ehWriteInst₂ (w : EhWriter) (cur : ℕ) (opcode : UInt8) (firstArg : ℕ) : EhWriter :=
  (w.ehWriteInst cur opcode).reserve (cur + (Assembler.ehWriteInst opcode firstArg).length) 10

end EhWriter

/-! ### Calls -/

/-- `eh_writer.size()`. -/
def ElfState.ehSize (st : ElfState) : ℕ :=
  ((st.getSection st.refs.ehFrame).map fun sec => sec.data.length).getD 0

/-- An assembler with its writer. -/
structure WritingAssembler where
  asm : AssemblerElf
  writer : EhWriter
  deriving DecidableEq

/-- A call of any function. -/
inductive WriterOp where
  | call (op : AsmOp)
  | ehWriteInst (opcode : UInt8) (arg : ℕ)
  | ehWriteInst₂ (opcode : UInt8) (firstArg secondArg : ℕ)
  | finalize

/-- A call leaves the bytes of the exception frames to the writer, and ends an entry that it has begun. -/
def AsmOp.Allowed (elf : ElfState) : AsmOp → Bool
  | .elf (.symDefPredefData ref _ _ _) | .elf (.symDefPredefZero ref _ _ _) | .elf (.setData ref _) =>
    ref ≠ elf.refs.ehFrame
  | .elf (.ehWrite _) => false
  | .elf (.ehEndFde fdeStart _) => fdeStart + 17 ≤ elf.ehSize
  | _ => true

/-- What a call reserves. -/
def EhWriter.call (target : TargetInfo) (w : EhWriter) (elf : ElfState) : AsmOp → EhWriter
  | .elf (.ehBeginFde personality) =>
    match elf.getSection elf.refs.ehFrame with
    | some sec => w.ehBeginFde target (elf.ehState sec) personality
    | none => w
  | .elf (.ehEndFde _ _) => w.ehAlignFrame elf.ehSize
  | _ => w

namespace WritingAssembler

/-- The cursor is not behind the end, as the writer asserts. -/
def checked (asm : AssemblerElf) (w : EhWriter) : Option WritingAssembler :=
  if asm.elf.ehSize ≤ w.stop then some ⟨asm, w⟩ else none

/-- The assertion of `eh_write_inst`: an argument that is written together with the opcode has no bits
of that. -/
def ArgOk (opcode : UInt8) (arg : ℕ) : Prop := opcode &&& dwarfCfiPrimaryOpcodeMask ≠ 0 → arg / 64 % 4 = 0

instance (opcode : UInt8) (arg : ℕ) : Decidable (ArgOk opcode arg) := inferInstanceAs (Decidable (_ → _))

/-- What a call does. -/
def step (target : TargetInfo) (st : WritingAssembler) : WriterOp → Option WritingAssembler
  | .call op =>
    if op.Allowed st.asm.elf then (st.asm.step target op).bind fun asm =>
      checked asm (st.writer.call target st.asm.elf op)
    else none
  | .ehWriteInst opcode arg =>
    if ArgOk opcode arg then
      checked { st.asm with elf := st.asm.elf.ehWrite (Assembler.ehWriteInst opcode arg) }
        (st.writer.ehWriteInst st.asm.elf.ehSize opcode)
    else none
  | .ehWriteInst₂ opcode firstArg secondArg =>
    if ArgOk opcode firstArg then
      checked { st.asm with elf := st.asm.elf.ehWrite (Assembler.ehWriteInst₂ opcode firstArg secondArg) }
        (st.writer.ehWriteInst₂ st.asm.elf.ehSize opcode firstArg)
    else none
  | .finalize => some { st with writer := st.writer.flush st.asm.elf.ehSize }

/-- What a sequence of calls does. -/
def run (target : TargetInfo) : WritingAssembler → List WriterOp → Option WritingAssembler
  | st, [] => some st
  | st, op :: ops => (st.step target op).bind fun st => run target st ops

/-- The vector in a section has room for this many bytes in itself. -/
def inlineCapacity : ℕ := 256

/-- A new assembler: its first writer has no vector, so that nothing is flushed. -/
def new (target : TargetInfo) : WritingAssembler :=
  ⟨AssemblerElf.new target, (⟨inlineCapacity, 0, 0⟩ : EhWriter).ehInitCie target 0 0⟩

/-- `reset`. The vector of the old writer is the new section's, which has the place of the old one: both
are the seventh in the first slab of `section_allocator`. Where the old bytes were in the section
itself, the old cursor is in the new vector. Otherwise it is in a buffer that was freed, and it must not
be used. -/
def reset (target : TargetInfo) (st : WritingAssembler) : Option WritingAssembler :=
  let cur := st.asm.elf.ehSize
  if inlineCapacity < st.writer.capacity ∧ cur ≠ st.writer.stop then none
  else
    let flushed := (⟨inlineCapacity, 0, st.writer.stop⟩ : EhWriter).flush cur
    some ⟨st.asm.reset target, { flushed with stop := 0 }.ehInitCie target 0 0⟩

/-- The old writer has nothing to flush, or its cursor is in the section itself. -/
def Flushed (st : WritingAssembler) : Prop := st.asm.elf.ehSize = st.writer.stop ∨
    st.writer.capacity ≤ inlineCapacity

end WritingAssembler

/-! ### The bytes fit -/

namespace EhWriter

/-- The size of the vector is not above its capacity. -/
def Fits (w : EhWriter) : Prop := w.stop ≤ w.capacity

theorem le_calcNewCapacity (cap minSize : ℕ) : minSize ≤ calcNewCapacity cap minSize := by
  rw [calcNewCapacity]
  split <;> omega

section
variable {w : EhWriter} {cur extra : ℕ} {target : TargetInfo}

theorem Fits.reserve (h : w.Fits) : (w.reserve cur extra).Fits := by
  rw [EhWriter.reserve]
  split
  · exact le_rfl
  · exact h

theorem Fits.flush (h : w.Fits) : (w.flush cur).Fits := by
  rw [EhWriter.flush]
  split
  · show cur ≤ if w.capacity < cur then calcNewCapacity w.capacity cur else w.capacity
    split
    · exact le_calcNewCapacity ..
    · omega
  · exact h

theorem Fits.ehAlignFrame (h : w.Fits) : (w.ehAlignFrame cur).Fits := by
  rw [EhWriter.ehAlignFrame]
  split
  · exact h.reserve
  · exact h

theorem Fits.ehInitCie (h : w.Fits) {personality : ℕ} : (w.ehInitCie target cur personality).Fits :=
  h.reserve.ehAlignFrame

theorem Fits.ehBeginFde (h : w.Fits) (eh : EhState) (personality : ℕ) :
    (w.ehBeginFde target eh personality).Fits := by
  rw [EhWriter.ehBeginFde]
  split
  · exact h.ehInitCie.reserve
  · exact h.reserve

theorem Fits.call (h : w.Fits) (elf : ElfState) (op : AsmOp) : (w.call target elf op).Fits := by
  cases op with
  | elf op =>
    cases op with
    | ehBeginFde personality =>
      rw [EhWriter.call]
      split
      · exact h.ehBeginFde ..
      · exact h
    | ehEndFde fdeStart func => exact h.ehAlignFrame
    | _ => exact h
  | _ => exact h

/-- There is the room that is reserved. -/
theorem le_stop_reserve (h : w.Fits) (hcur : cur ≤ w.stop) : cur + extra ≤ (w.reserve cur extra).stop ∧
    w.stop ≤ (w.reserve cur extra).stop := by
  have hnew := le_calcNewCapacity w.capacity (cur + extra)
  rw [Fits] at h
  rw [EhWriter.reserve]
  split
  · dsimp only
    split <;> omega
  · omega

end

end EhWriter

/-! ### Runs -/

namespace WritingAssembler

variable {target : TargetInfo} {st st' : WritingAssembler}

/-- What holds of the writer. -/
structure WriterInv (st : WritingAssembler) : Prop where
  fits : st.writer.Fits
  cur : st.asm.elf.ehSize ≤ st.writer.stop

theorem WriterInv.checked {asm : AssemblerElf} {w : EhWriter} (hfits : w.Fits)
    (h : checked asm w = some st) : WriterInv st := by
  obtain ⟨hcur, h⟩ := Option.ite_none_right_eq_some.mp h
  obtain rfl := Option.some.inj h
  exact ⟨hfits, hcur⟩

theorem WriterInv.step {op : WriterOp} (h : WriterInv st) (hst : st.step target op = some st') :
    WriterInv st' := by
  cases op with
  | call op =>
    obtain ⟨-, hst⟩ := Option.ite_none_right_eq_some.mp hst
    obtain ⟨asm, -, hst⟩ := Option.bind_eq_some_iff.mp hst
    exact .checked (h.fits.call _ _) hst
  | ehWriteInst opcode arg => exact .checked h.fits.reserve (Option.ite_none_right_eq_some.mp hst).2
  | ehWriteInst₂ opcode firstArg secondArg =>
    exact .checked h.fits.reserve.reserve (Option.ite_none_right_eq_some.mp hst).2
  | finalize =>
    obtain rfl := Option.some.inj hst
    refine ⟨h.fits.flush, ?_⟩
    show st.asm.elf.ehSize ≤ (st.writer.flush st.asm.elf.ehSize).stop
    rw [EhWriter.flush]
    split
    · exact le_rfl
    · exact h.cur

theorem WriterInv.run {ops : List WriterOp} (h : WriterInv st) (hst : run target st ops = some st') :
    WriterInv st' := by
  induction ops generalizing st with
  | nil =>
    obtain rfl := Option.some.inj hst
    exact h
  | cons op ops ih =>
    obtain ⟨st₁, hst₁, hst⟩ := Option.bind_eq_some_iff.mp hst
    exact ih (h.step hst₁) hst

theorem length_patch {data bs : List UInt8} {off : ℕ} (h : off + bs.length ≤ data.length) :
    (patch data off bs).length = data.length := by
  rw [patch, List.length_append, List.length_append, List.length_take, List.length_drop]
  omega

/-- The bytes of a common entry. -/
theorem length_ehInitCie (eh : EhState) (personality : ℕ) : (eh.ehInitCie target personality).data.length =
    eh.data.length + EhWriter.cieSize target personality +
      (ehAlignFrame (eh.data.length + EhWriter.cieSize target personality)).length := by
  have hhead : 4 ≤ (cieHead target personality).length := by
    rw [cieHead]
    simp
  have hsize : EhWriter.cieSize target personality =
      (cieHead target personality).length + (if personality = 0 then 1
        else 7) + target.cieInstrs.length := rfl
  by_cases hp : personality = 0
  · rw [if_pos hp] at hsize
    have hlen :
      (eh.data ++ cieHead target personality ++ [dwEhPeSdata4 ||| dwEhPePcrel] ++ target.cieInstrs).length =
        eh.data.length + EhWriter.cieSize target personality := by
      simp only [List.length_append, List.length_singleton]
      omega
    simp only [EhState.ehInitCie, EhState.write, if_pos hp]
    split <;> dsimp only <;>
      rw [length_patch (by rw [Bytes.length_ofNat, List.length_append]; omega), List.length_append, hlen]
  · rw [if_neg hp] at hsize
    have hlen :
      (eh.data ++ cieHead target personality ++ [dwEhPePcrel ||| dwEhPeSdata4 ||| dwEhPeIndirect] ++
      Bytes.ofNat 4 0 ++
        [dwEhPePcrel ||| dwEhPeSdata4] ++ [dwEhPeSdata4 ||| dwEhPePcrel] ++ target.cieInstrs).length =
        eh.data.length + EhWriter.cieSize target personality := by
      simp only [List.length_append, List.length_singleton, Bytes.length_ofNat]
      omega
    simp only [EhState.ehInitCie, EhState.write, EhState.relocSec, if_neg hp]
    split <;> dsimp only <;>
      rw [length_patch (by rw [Bytes.length_ofNat, List.length_append]; omega), List.length_append, hlen]

theorem ehSize_init (target : TargetInfo) : (init target).ehSize = (initEh target).data.length := by
  rw [init]
  refine (congrArg ElfState.ehSize (modifyEh_initSections target [] [] 0 0)).trans ?_
  rfl

/-- The bytes of a new assembler fit. -/
theorem WriterInv.new (target : TargetInfo) : WriterInv (new target) := by
  have hfits : (⟨inlineCapacity, 0, 0⟩ : EhWriter).Fits := Nat.zero_le _
  refine ⟨hfits.ehInitCie, ?_⟩
  obtain ⟨hroom, -⟩ := @EhWriter.le_stop_reserve _ 0 (32 + target.cieInstrs.length) hfits le_rfl
  set w := (⟨inlineCapacity, 0, 0⟩ : EhWriter).reserve 0 (32 + target.cieInstrs.length) with hw
  have hsize : EhWriter.cieSize target 0 ≤ w.stop := by
    have hhead : (cieHead target 0).length = 16 := rfl
    rw [EhWriter.cieSize, hhead]
    simp only [if_true]
    omega
  have hlen :
    (initEh target).data.length =
    EhWriter.cieSize target 0 + (ehAlignFrame (EhWriter.cieSize target 0)).length := by
    show (EhState.ehInitCie target ⟨[], [], 0, 0, 0⟩ 0).data.length = _
    rw [length_ehInitCie]
    simp only [List.length_nil, Nat.zero_add]
  show (init target).ehSize ≤ (w.ehAlignFrame (0 + EhWriter.cieSize target 0)).stop
  rw [ehSize_init, hlen, Nat.zero_add, EhWriter.ehAlignFrame, ehAlignFrame, List.length_replicate]
  split
  · obtain ⟨hle, -⟩ := @EhWriter.le_stop_reserve w _ 8 hfits.reserve hsize
    omega
  · omega

theorem step_call {op : AsmOp} (h : op.Allowed st.asm.elf = true) : st.step target (.call op) =
    (st.asm.step target op).bind fun asm => checked asm (st.writer.call target st.asm.elf op) := if_pos h

/-- Its calls, as those of the assembler without its writer. -/
def erase : WriterOp → List AsmOp
  | .call op => [op]
  | .ehWriteInst opcode arg => [.elf (.ehWrite (Assembler.ehWriteInst opcode arg))]
  | .ehWriteInst₂ opcode firstArg secondArg =>
    [.elf (.ehWrite (Assembler.ehWriteInst₂ opcode firstArg secondArg))]
  | .finalize => []

theorem checked_asm {asm : AssemblerElf} {w : EhWriter} (h : checked asm w = some st) : st.asm = asm := by
  obtain ⟨-, h⟩ := Option.ite_none_right_eq_some.mp h
  rw [← Option.some.inj h]

/-- **The writer changes nothing**: without it there is the same run. -/
theorem run_erase {ops : List WriterOp} (h : run target st ops = some st') :
    AssemblerElf.run target st.asm (ops.flatMap erase) = some st'.asm := by
  induction ops generalizing st with
  | nil =>
    obtain rfl := Option.some.inj h
    rfl
  | cons op ops ih =>
    obtain ⟨st₁, hst₁, h⟩ := Option.bind_eq_some_iff.mp h
    have hrest := ih h
    cases op with
    | call op =>
      obtain ⟨-, hst₁⟩ := Option.ite_none_right_eq_some.mp hst₁
      obtain ⟨asm, hasm, hst₁⟩ := Option.bind_eq_some_iff.mp hst₁
      rw [checked_asm hst₁] at hrest
      show (st.asm.step target op).bind _ = _
      rw [hasm]
      exact hrest
    | ehWriteInst opcode arg =>
      rw [checked_asm (Option.ite_none_right_eq_some.mp hst₁).2] at hrest
      exact hrest
    | ehWriteInst₂ opcode firstArg secondArg =>
      rw [checked_asm (Option.ite_none_right_eq_some.mp hst₁).2] at hrest
      exact hrest
    | finalize =>
      obtain rfl := Option.some.inj hst₁
      exact hrest

end WritingAssembler

end Tpde.Assembler
