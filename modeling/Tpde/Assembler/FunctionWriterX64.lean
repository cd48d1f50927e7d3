import Tpde.Library.Ranges
import Tpde.Library.X64Code
import Tpde.Util.SmallVectorInv

/-!
# The function writer of x86-64

`FunctionWriterX64` writes the text of a function through pointers into the data of a section, which
moves when it grows. What is written is only ever appended: `Appends` says what a step adds to the text
and to the fixups, wherever the data is now.
-/

namespace Tpde.Assembler.X64

open Bytes X64Code Ranges Util

/-! ### The data of a section -/

/-- What `malloc` and `realloc` give the `n`th time, if anything: a place, and the memory but for the
bytes that are copied. -/
abbrev Allocator := ℕ → Option (ℕ × Mem)

/-- `DataSection`, in memory: the `SmallVector` of its data, and how often that has grown. No buffer has
2^63 bytes. -/
structure DataSection where
  mem : Mem
  ptr : ℕ
  size : ℕ
  capacity : ℕ
  align : ℕ
  grows : ℕ
  size_le : size ≤ capacity
  capacity_lt : capacity < 2 ^ 63

namespace DataSection

/-- `resize_uninitialized`, with `reserve` and `grow_trivial`. -/
def resizeUninitialized (A : Allocator) (s : DataSection) (newSize : ℕ) : Option DataSection :=
  if hle : newSize ≤ s.capacity then some { s with size := newSize, size_le := hle }
  else if hlt : SmallVector.calcNewCapacity s.capacity newSize < 2 ^ 63 then
    (A s.grows).map fun buffer =>
      { mem := buffer.2.store buffer.1 (s.mem.load s.ptr s.size), ptr := buffer.1, size := newSize
        capacity := SmallVector.calcNewCapacity s.capacity newSize, align := s.align, grows := s.grows + 1
        size_le := Vectors.le_calcNewCapacity s.capacity newSize, capacity_lt := hlt }
  else none

/-- The bytes up to the old size are where the data is now. -/
theorem resizeUninitialized_spec {A : Allocator} {s s' : DataSection} {newSize : ℕ}
    (h : s.resizeUninitialized A newSize = some s') :
    s'.size = newSize ∧ ∀ i < s.size, s'.mem (s'.ptr + i) = s.mem (s.ptr + i) := by
  rw [resizeUninitialized] at h
  split at h
  · cases h
    exact ⟨rfl, fun _ _ => rfl⟩
  · split at h
    · obtain ⟨buffer, -, rfl⟩ := Option.map_eq_some_iff.mp h
      refine ⟨rfl, fun i hi => ?_⟩
      dsimp only
      rw [Mem.store_apply (by rw [Mem.length_load]; exact hi)]
      simp only [Mem.load, List.getElem_map, List.getElem_range]
    · cases h

end DataSection

/-! ### The writer -/

/-- `LabelFixupKind` of x86-64. -/
inductive FixupKind where
  | jmpOrMemDisp
  | jumpTable
  deriving DecidableEq

/-- `LabelFixup`. -/
structure LabelFixup where
  label : ℕ
  off : ℕ
  kind : FixupKind
  deriving DecidableEq

/-- `FunctionWriter`: the pointers into the data of the section are those of its buffer. -/
structure FunctionWriter where
  sec : DataSection
  dataBegin : ℕ
  dataCur : ℕ
  dataReserveEnd : ℕ
  labelOffsets : List (BitVec 32)
  labelFixups : List LabelFixup
  growthSize : ℕ
  begin_eq : dataBegin = sec.ptr
  begin_le : dataBegin ≤ dataCur
  cur_le : dataCur ≤ dataReserveEnd
  end_eq : dataReserveEnd = sec.ptr + sec.size

namespace FunctionWriter

variable (A : Allocator) (w : FunctionWriter)

/-- `offset`. -/
def offset : ℕ := w.dataCur - w.dataBegin

theorem offset_le : w.offset ≤ w.sec.size := by
  have hbegin := w.begin_eq
  have hcur := w.cur_le
  have hend := w.end_eq
  rw [offset]
  omega

theorem cur_eq : w.dataCur = w.dataBegin + w.offset := by
  have hbegin := w.begin_le
  rw [offset]
  omega

/-- The size that `more_space` resizes the section to. -/
def newSize (size : ℕ) : ℕ :=
  if (w.sec.size + size) % 2 ^ 64 ≤ w.sec.capacity then w.sec.capacity
  else w.sec.size + if size ≤ w.growthSize then w.growthSize else size

/-- The growth size after `more_space`. -/
def newGrowthSize (size : ℕ) : ℕ :=
  if (w.sec.size + size) % 2 ^ 64 ≤ w.sec.capacity then w.growthSize
  else
    let growthSize := (w.growthSize + w.growthSize / 2) % 2 ^ 32
    if growthSize < 0x1000000 then growthSize else 0x1000000

theorem size_le_newSize (size : ℕ) : w.sec.size ≤ w.newSize size := by
  rw [newSize]
  split
  · exact w.sec.size_le
  · exact Nat.le_add_right ..

theorem moreSpace_cur_le {w : FunctionWriter} {size : ℕ} {sec : DataSection}
    (h : w.sec.resizeUninitialized A (w.newSize size) = some sec) :
    sec.ptr + w.offset ≤ sec.ptr + sec.size := by
  rw [(DataSection.resizeUninitialized_spec h).1]
  exact Nat.add_le_add_left (w.offset_le.trans (w.size_le_newSize size)) _

/-- `more_space`. -/
def moreSpace (size : ℕ) : Option FunctionWriter :=
  match h : w.sec.resizeUninitialized A (w.newSize size) with
  | none => none
  | some sec => some { w with
      sec := sec
      dataBegin := sec.ptr
      dataCur := sec.ptr + w.offset
      dataReserveEnd := sec.ptr + sec.size
      growthSize := w.newGrowthSize size
      begin_eq := rfl
      begin_le := Nat.le_add_right sec.ptr w.offset
      cur_le := moreSpace_cur_le A h
      end_eq := rfl }

/-- `ensure_space`. -/
def ensureSpace (size : ℕ) : Option FunctionWriter :=
  if w.dataReserveEnd - w.dataCur < size then w.moreSpace A size else some w

/-- Writes bytes at `cur_ptr` and moves it behind them; they must be in the reserved space. -/
def put (bs : List UInt8) : Option FunctionWriter :=
  if h : w.dataCur + bs.length ≤ w.dataReserveEnd then
    some { w with
      sec := { w.sec with mem := w.sec.mem.store w.dataCur bs }
      dataCur := w.dataCur + bs.length
      begin_le := w.begin_le.trans (Nat.le_add_right w.dataCur bs.length)
      cur_le := h }
  else none

/-- Moves `cur_ptr` on: the bytes are those that are there, to be written later. -/
def advance (size : ℕ) : Option FunctionWriter :=
  if h : w.dataCur + size ≤ w.dataReserveEnd then
    some { w with
      dataCur := w.dataCur + size, begin_le := w.begin_le.trans (Nat.le_add_right w.dataCur size),
        cur_le := h }
  else none

/-- `ensure_space`, and `cur_ptr` moved behind the space, as for the prologue and the epilogue. -/
def skip (size : ℕ) : Option FunctionWriter := do
  let w ← w.ensureSpace A size
  w.advance size

/-- `write`, of the bytes of a number. -/
def write (bs : List UInt8) : Option FunctionWriter := do
  let w ← w.ensureSpace A bs.length
  w.put bs

/-- `encode` of `asm_helper`: an instruction, with space for it if there is some to be reserved. -/
def encode (reserve : ℕ) (bs : List UInt8) : Option FunctionWriter := do
  let w ← if reserve ≠ 0 then w.ensureSpace A reserve else some w
  if bs.length ≠ 0 then w.put bs else none

/-- `begin_func`. -/
def beginFunc (expectedSize : ℕ) : Option FunctionWriter :=
  ({ w with
    labelOffsets := [], labelFixups := [], growthSize := expectedSize } : FunctionWriter).ensureSpace A
      expectedSize

theorem align_begin_le (n : ℕ) : w.dataBegin ≤ w.dataBegin + Ranges.alignUp w.offset n := Nat.le_add_right ..

theorem align_cur_le {w : FunctionWriter} {n : ℕ} (h : w.dataCur + n ≤ w.dataReserveEnd) :
    w.dataBegin + Ranges.alignUp w.offset n ≤ w.dataReserveEnd := by
  have hle := alignUp_le_add w.offset n
  have hcur := w.cur_eq
  have hend := w.cur_le
  omega

/-- `FunctionWriter::align`. -/
def alignZero (n : ℕ) : Option FunctionWriter :=
  if 0 < n ∧ n &&& (n - 1) = 0 then do
    let w ← w.ensureSpace A n
    if h : w.dataCur + n ≤ w.dataReserveEnd then
      some { w with
        sec := { w.sec with
          mem := w.sec.mem.store w.dataCur (List.replicate n 0), align := max w.sec.align (n % 2 ^ 32) }
        dataCur := w.dataBegin + Ranges.alignUp w.offset n
        begin_le := w.align_begin_le n
        cur_le := align_cur_le h }
    else none
  else none

/-- The writer with other contents of the memory. -/
def setMem (mem : Mem) : FunctionWriter := { w with sec := { w.sec with mem := mem } }

/-! ### Labels -/

/-- The offset of a label that is not placed. -/
def unplaced : BitVec 32 := ~~~0

/-- `label_create`, with the label. -/
def labelCreate : FunctionWriter × ℕ :=
  ({ w with labelOffsets := w.labelOffsets ++ [unplaced] }, w.labelOffsets.length)

/-- `label_is_pending`. -/
def labelIsPending (label : ℕ) : Option Bool := w.labelOffsets[label]?.map (· == unplaced)

/-- `label_offset`, of a label that is placed. -/
def labelOffset (label : ℕ) : Option (BitVec 32) := w.labelOffsets[label]?.filter (· != unplaced)

/-- `label_place`. -/
def labelPlace (label off : ℕ) : Option FunctionWriter :=
  if w.labelIsPending label = some true then
    some { w with labelOffsets := w.labelOffsets.set label (BitVec.ofNat 32 off) }
  else none

/-- `label_ref`. -/
def labelRef (label off : ℕ) (kind : FixupKind) : Option FunctionWriter :=
  if w.labelIsPending label = some true then
    some { w with labelFixups := w.labelFixups ++ [⟨label, off % 2 ^ 32, kind⟩] }
  else none

/-- What a fixup makes of the bytes that are there. -/
def fixupValue (fixup : LabelFixup) (labelOff : BitVec 32) (bs : List UInt8) : List UInt8 :=
  match fixup.kind with
  | .jmpOrMemDisp => ofNat 4 (labelOff - BitVec.ofNat 32 fixup.off - 4).toNat
  | .jumpTable => ofNat 4 (labelOff - BitVec.ofNat 32 (toNat bs)).toNat

/-- The loop body of `handle_fixups`. -/
def handleFixup (fixup : LabelFixup) : Option FunctionWriter := do
  let labelOff ← w.labelOffset fixup.label
  let dstPtr := w.dataBegin + fixup.off
  some (w.setMem (w.sec.mem.store dstPtr (fixupValue fixup labelOff (w.sec.mem.load dstPtr 4))))

/-- `handle_fixups`. -/
def handleFixups : Option FunctionWriter := w.labelFixups.foldlM handleFixup w

/-- `finish_func`. -/
def finishFunc : Option FunctionWriter := w.handleFixups

end FunctionWriter

/-! ### Jumps -/

/-- `Jump`. -/
inductive Jump where
  | jo | jno | jb | jae | je | jne | jbe | ja | js | jns | jp | jnp | jl | jge | jle | jg | jmp
  deriving DecidableEq, Repr

namespace Jump

/-- `jump_to_cond`: the number of the jump. -/
def toCond (j : Jump) : ℕ := j.ctorIdx

/-- The condition code, if there is one. -/
def cond (j : Jump) : Option ℕ := if j = jmp then none else some j.toCond

theorem toCond_lt {j : Jump} (h : j ≠ jmp) : j.toCond < 16 := by
  cases j with
  | jmp => exact absurd rfl h
  | _ => exact Nat.lt_of_sub_eq_succ rfl

theorem cond_lt {j : Jump} : ∀ c ∈ j.cond, c < 16 := by
  intro c hc
  rw [cond] at hc
  split at hc
  · cases hc
  · obtain rfl := Option.mem_some_iff.mp hc
    exact toCond_lt ‹_›

end Jump

/-- The encoders of fadec: `fe64_JMP` and `fe64_Jcc`, with the flag `FE_JMPL`, the buffer and the
target, and `fe64_NOP`. -/
structure Encoder where
  jmp : Bool → ℕ → ℕ → List UInt8
  jcc : Bool → ℕ → ℕ → ℕ → List UInt8
  nop : ℕ → List UInt8

/-- The encoder for a jump. -/
def Encoder.jump (E : Encoder) (j : Jump) (long : Bool) (buf target : ℕ) : List UInt8 :=
  if j = .jmp then E.jmp long buf target else E.jcc long j.toCond buf target

/-- No jump from `buf` needs a displacement of more than 32 bits. -/
def Near (buf target : ℕ) : Prop := -2 ^ 31 + 6 ≤ (target : ℤ) - buf ∧ (target : ℤ) - buf < 2 ^ 31

/-- What is documented of the encoders, which give no bytes for what they cannot encode: a jump leads to
its target, one with `FE_JMPL` has a displacement of 32 bits, no jump has more than 6 bytes, and padding
is as long as it should be. -/
structure Encoder.Ok (E : Encoder) : Prop where
  jmp_target : ∀ long buf target rest, E.jmp long buf target ≠ [] →
    decodeJump (E.jmp long buf target ++ rest) =
      some ⟨none, (E.jmp long buf target).length, (target : ℤ) - (buf + (E.jmp long buf target).length : ℕ)⟩
  jcc_target : ∀ long cond buf target rest, cond < 16 → E.jcc long cond buf target ≠ [] →
    decodeJump (E.jcc long cond buf target ++ rest) =
      some ⟨some cond, (E.jcc long cond buf target).length,
        (target : ℤ) - (buf + (E.jcc long cond buf target).length : ℕ)⟩
  jmp_long : ∀ buf target, E.jmp true buf target ≠ [] → ∃ disp, disp.length = 4 ∧
    E.jmp true buf target = longOpcode none ++ disp
  jcc_long : ∀ cond buf target, cond < 16 → E.jcc true cond buf target ≠ [] →
    ∃ disp, disp.length = 4 ∧ E.jcc true cond buf target = longOpcode (some cond) ++ disp
  jmp_near : ∀ long buf target, Near buf target → E.jmp long buf target ≠ []
  jcc_near : ∀ long cond buf target, cond < 16 → Near buf target → E.jcc long cond buf target ≠ []
  length_jmp : ∀ long buf target, (E.jmp long buf target).length ≤ 6
  length_jcc : ∀ long cond buf target, (E.jcc long cond buf target).length ≤ 6
  length_nop : ∀ n ≠ 0, (E.nop n).length = n

/-- The padding. -/
def Encoder.pad (E : Encoder) (n : ℕ) : List UInt8 := if n = 0 then [] else E.nop n

namespace FunctionWriter

variable (E : Encoder) (A : Allocator) (w : FunctionWriter)

/-- `FunctionWriterX64::align`: the padding is of `nop`s. -/
def align (n : ℕ) : Option FunctionWriter := do
  let oldOff := w.offset % 2 ^ 32
  let w ← w.alignZero A n
  let curOff := w.offset % 2 ^ 32
  if oldOff < curOff then
    some (w.setMem (w.sec.mem.store (w.dataCur - (curOff - oldOff)) (E.nop (curOff - oldOff))))
  else some w

/-- `generate_raw_jump`. -/
def generateRawJump (j : Jump) (targetLabel : ℕ) : Option FunctionWriter := do
  let w ← w.ensureSpace A 6
  let pending ← w.labelIsPending targetLabel
  if pending then
    let w ← w.encode A 0 (E.jump j true w.dataCur w.dataCur)
    w.labelRef targetLabel (w.offset - 4) .jmpOrMemDisp
  else
    let off ← w.labelOffset targetLabel
    w.encode A 0 (E.jump j false w.dataCur (w.dataBegin + off.toNat))

/-- An instruction with a displacement in its last 4 bytes, which is to be the one to a label. -/
def memDisp (bs : List UInt8) (label : ℕ) : Option FunctionWriter := do
  let w ← w.encode A 16 bs
  w.labelRef label (w.offset - 4) .jmpOrMemDisp

/-- An entry of a jump table. -/
def writeEntry (tableOff : ℕ) (w : FunctionWriter) (label : ℕ) : Option FunctionWriter := do
  let pending ← w.labelIsPending label
  if pending then
    let w ← w.labelRef label w.offset .jumpTable
    w.write A (ofNat 4 (tableOff % 2 ^ 32))
  else
    let labelOff ← w.labelOffset label
    w.write A (ofNat 4 (labelOff - BitVec.ofNat 32 tableOff).toNat)

/-- The end of `switch_emit_jump_table`: the table. -/
def jumpTable (table : ℕ) (labels : List ℕ) : Option FunctionWriter := do
  let w ← w.align E A 4
  let w ← w.ensureSpace A (4 + 4 * labels.length)
  let w ← w.labelPlace table w.offset
  labels.foldlM (writeEntry A w.offset) w

end FunctionWriter

/-! ### What is written -/

/-- What the writer stands for, wherever its data is: the bytes up to its position, the labels, and the
fixups. -/
structure Code where
  text : List UInt8
  labels : List (BitVec 32)
  fixups : List LabelFixup

namespace Code

variable (c : Code)

def Pending (label : ℕ) : Prop := c.labels[label]? = some FunctionWriter.unplaced

def Placed (label : ℕ) (off : BitVec 32) : Prop := c.labels[label]? = some off ∧ off ≠ FunctionWriter.unplaced

/-- More bytes, with fixups. -/
def append (bs : List UInt8) (fs : List LabelFixup) : Code := ⟨c.text ++ bs, c.labels, c.fixups ++ fs⟩

/-- A label is placed at the end. -/
def place (label : ℕ) : Code := ⟨c.text, c.labels.set label (BitVec.ofNat 32 c.text.length), c.fixups⟩

def create : Code := ⟨c.text, c.labels ++ [FunctionWriter.unplaced], c.fixups⟩

end Code

namespace FunctionWriter

variable {E : Encoder} {A : Allocator} {w w' : FunctionWriter}

/-- The bytes of the function, and those before it. -/
def text (w : FunctionWriter) : List UInt8 := w.sec.mem.load w.dataBegin w.offset

def code (w : FunctionWriter) : Code := ⟨w.text, w.labelOffsets, w.labelFixups⟩

@[simp] theorem length_text (w : FunctionWriter) : w.text.length = w.offset := Mem.length_load ..

/-- **Growing keeps what is written**, and every position. -/
theorem moreSpace_code {size : ℕ} (h : w.moreSpace A size = some w') : w'.code = w.code := by
  rw [moreSpace] at h
  split at h
  · cases h
  · rename_i sec hsec
    cases h
    have hkeep := (DataSection.resizeUninitialized_spec hsec).2
    have htext : sec.mem.load sec.ptr w.offset = w.text := by
      refine List.map_congr_left fun i hi => ?_
      rw [w.begin_eq]
      exact hkeep i ((List.mem_range.mp hi).trans_le w.offset_le)
    rw [code, code, text]
    simp only [offset, Nat.add_sub_cancel_left] at htext ⊢
    rw [htext]

theorem ensureSpace_code {size : ℕ} (h : w.ensureSpace A size = some w') : w'.code = w.code := by
  rw [ensureSpace] at h
  split at h
  · exact moreSpace_code h
  · cases h
    rfl

/-- There is room for what is asked for. -/
theorem ensureSpace_room {size : ℕ} (hsize : size < 2 ^ 63) (h : w.ensureSpace A size = some w') :
    w'.dataCur + size ≤ w'.dataReserveEnd := by
  have hcur := w.cur_le
  rw [ensureSpace] at h
  split at h
  · rw [moreSpace] at h
    split at h
    · cases h
    · rename_i sec hsec
      cases h
      dsimp only
      rw [(DataSection.resizeUninitialized_spec hsec).1, newSize]
      have hoff := w.offset_le
      have hle := w.sec.size_le
      have hlt := w.sec.capacity_lt
      split
      · omega
      · split <;> omega
  · cases h
    omega

theorem put_isSome {bs : List UInt8} (h : w.dataCur + bs.length ≤ w.dataReserveEnd) : (w.put bs).isSome := by
  rw [put, dif_pos h]
  rfl

theorem put_code {bs : List UInt8} (h : w.put bs = some w') : w'.code = w.code.append bs [] := by
  rw [put] at h
  split at h
  · cases h
    have htext := Mem.load_store_append w.sec.mem w.dataBegin w.offset bs
    have hoff : w.dataCur + bs.length - w.dataBegin = w.offset + bs.length := by
      have hcur := w.cur_eq
      omega
    rw [← w.cur_eq] at htext
    rw [code, text, offset, Code.append, List.append_nil]
    dsimp only
    rw [hoff, htext]
    rfl
  · cases h

theorem encode_code {reserve : ℕ} {bs : List UInt8} (h : w.encode A reserve bs = some w') :
    bs ≠ [] ∧ w'.code = w.code.append bs [] := by
  have hput {v : FunctionWriter} (hcode : v.code = w.code)
    (h : (if bs.length ≠ 0 then v.put bs else none) = some w') :
      bs ≠ [] ∧ w'.code = w.code.append bs [] := by
    split at h <;> rename_i hbs
    · exact ⟨List.ne_nil_of_length_pos (Nat.pos_of_ne_zero hbs), by rw [put_code h, hcode]⟩
    · cases h
  rw [encode] at h
  split at h
  · obtain ⟨v, hv, h⟩ := Option.bind_eq_some_iff.mp h
    exact hput (ensureSpace_code hv) h
  · exact hput rfl h

theorem write_code {bs : List UInt8} (h : w.write A bs = some w') : w'.code = w.code.append bs [] := by
  obtain ⟨v, hv, h⟩ := Option.bind_eq_some_iff.mp h
  rw [put_code h, ensureSpace_code hv]

theorem offset_of_code (h : w'.code = w.code) : w'.offset = w.offset := by
  rw [← length_text, ← length_text]
  exact congrArg (fun c => c.text.length) h

/-- Where more text ends, the text is longer by what is there. -/
theorem text_of_offset {m : Mem} {a : ℕ} (k : ℕ) (h : m.load a w.offset = w.text) :
    m.load a (w.offset + k) = w.text ++ m.load (a + w.offset) k := by
  rw [Mem.load_append, h]

theorem skip_code {size : ℕ} (h : w.skip A size = some w') : ∃ bs, bs.length = size ∧
    w'.code = w.code.append bs [] := by
  obtain ⟨v, hv, h⟩ := Option.bind_eq_some_iff.mp h
  rw [← ensureSpace_code hv]
  rw [advance] at h
  split at h
  · cases h
    refine ⟨v.sec.mem.load (v.dataBegin + v.offset) size, Mem.length_load .., ?_⟩
    have hoff : v.dataCur + size - v.dataBegin = v.offset + size := by
      have hcur := v.cur_eq
      omega
    rw [code, text, offset, Code.append, List.append_nil]
    dsimp only
    rw [hoff, text_of_offset size rfl]
    rfl
  · cases h

/-- The writer after `FunctionWriter::align`. -/
theorem alignZero_code {n : ℕ} (h : w.alignZero A n = some w') :
    ∃ bs, bs.length = Ranges.alignUp w.offset n - w.offset ∧ w.offset ≤ Ranges.alignUp w.offset n ∧
      w'.code = w.code.append bs [] := by
  rw [alignZero] at h
  split at h
  · rename_i hn
    obtain ⟨v, hv, h⟩ := Option.bind_eq_some_iff.mp h
    rw [← offset_of_code (ensureSpace_code hv), ← ensureSpace_code hv]
    have hle := le_alignUp v.offset hn.1
    split at h
    · cases h
      set m := v.sec.mem.store v.dataCur (List.replicate n 0)
      have htext : m.load v.dataBegin v.offset = v.text := Mem.load_store_of_apart (.inl v.cur_eq.ge)
      refine ⟨m.load (v.dataBegin + v.offset) (Ranges.alignUp v.offset n - v.offset),
        Mem.length_load .., hle, ?_⟩
      have hadd := text_of_offset (Ranges.alignUp v.offset n - v.offset) htext
      rw [Nat.add_sub_cancel' hle] at hadd
      change Code.mk (m.load v.dataBegin (v.dataBegin + Ranges.alignUp v.offset n - v.dataBegin))
        v.labelOffsets v.labelFixups = _
      rw [Nat.add_sub_cancel_left, hadd, Code.append, List.append_nil]
      rfl
    · cases h
  · cases h

theorem labelIsPending_iff {label : ℕ} : w.labelIsPending label = some true ↔ w.code.Pending label := by
  rw [labelIsPending, Option.map_eq_some_iff, Code.Pending]
  constructor
  · rintro ⟨off, hoff, h⟩
    rw [← beq_iff_eq.mp h]
    exact hoff
  · intro h
    exact ⟨unplaced, h, beq_self_eq_true _⟩

theorem labelOffset_iff {label : ℕ} {off : BitVec 32} : w.labelOffset label = some off ↔
    w.code.Placed label off := by
  rw [labelOffset, Option.filter_eq_some_iff, bne_iff_ne]
  rfl

theorem labelPlace_code {label : ℕ} (h : w.labelPlace label w.offset = some w') :
    w.code.Pending label ∧ w'.code = w.code.place label := by
  rw [labelPlace] at h
  split at h
  · cases h
    refine ⟨labelIsPending_iff.mp ‹_›, ?_⟩
    rw [Code.place]
    change _ = Code.mk w.text (w.labelOffsets.set label (BitVec.ofNat 32 w.text.length)) w.labelFixups
    rw [length_text]
    rfl
  · cases h

theorem labelRef_code {label off : ℕ} {kind : FixupKind} (h : w.labelRef label off kind = some w') :
    w.code.Pending label ∧ w'.code = w.code.append [] [⟨label, off % 2 ^ 32, kind⟩] := by
  rw [labelRef] at h
  split at h
  · cases h
    refine ⟨labelIsPending_iff.mp ‹_›, ?_⟩
    rw [Code.append, List.append_nil]
    rfl
  · cases h

theorem beginFunc_code {expectedSize : ℕ} (h : w.beginFunc A expectedSize = some w') :
    w'.code = ⟨w.text, [], []⟩ :=
  ensureSpace_code h

theorem offset_append {c : Code} {bs : List UInt8} {fs : List LabelFixup} (h : w.code = c.append bs fs) :
    w.offset = c.text.length + bs.length := by
  rw [← length_text, ← List.length_append]
  exact congrArg (fun c => c.text.length) h

/-- Below 4 GiB the padding is of `nop`s. -/
theorem align_code (hE : E.Ok) {n : ℕ} (h : w.align E A n = some w') :
    w'.offset = Ranges.alignUp w.offset n ∧ w.offset ≤ w'.offset ∧
      (w'.offset < 2 ^ 32 → w'.code = w.code.append (E.pad (w'.offset - w.offset)) []) := by
  obtain ⟨v, hv, h⟩ := Option.bind_eq_some_iff.mp h
  obtain ⟨bs, hlen, hle, hcode⟩ := alignZero_code hv
  have hoff : v.offset = Ranges.alignUp w.offset n := by
    rw [offset_append hcode, code, length_text]
    omega
  rw [← hoff] at hlen hle ⊢
  dsimp only at h
  split at h <;> rename_i hlt <;> cases h
  · refine ⟨rfl, hle, fun hsize => ?_⟩
    change v.offset < 2 ^ 32 at hsize
    have hpos : v.offset - w.offset ≠ 0 := by omega
    have hpad : v.offset % 2 ^ 32 - w.offset % 2 ^ 32 = v.offset - w.offset := by
      rw [Nat.mod_eq_of_lt hsize, Nat.mod_eq_of_lt (hle.trans_lt hsize)]
    have hplace : v.dataCur - (v.offset - w.offset) = v.dataBegin + w.offset := by
      have hcur := v.cur_eq
      omega
    have hold : v.sec.mem.load v.dataBegin w.offset = w.text := by
      have htext : v.sec.mem.load v.dataBegin v.offset = w.text ++ bs := congrArg Code.text hcode
      rw [← Nat.add_sub_cancel' hle, Mem.load_append] at htext
      exact (List.append_inj htext (by rw [Mem.length_load, length_text])).1
    have htext := Mem.load_store_append v.sec.mem v.dataBegin w.offset (E.nop (v.offset - w.offset))
    rw [hE.length_nop _ hpos, Nat.add_sub_cancel' hle, hold] at htext
    change Code.mk ((v.sec.mem.store _ _).load v.dataBegin v.offset) v.labelOffsets v.labelFixups =
      w.code.append (E.pad (v.offset - w.offset)) []
    rw [Encoder.pad, if_neg hpos, hpad, hplace, htext, Code.append,
      ← show v.labelOffsets = w.code.labels from congrArg Code.labels hcode,
      ← show v.labelFixups = w.code.fixups ++ [] from congrArg Code.fixups hcode]
    rfl
  · refine ⟨rfl, hle, fun hsize => ?_⟩
    have hnone : w'.offset - w.offset = 0 := by omega
    rw [hnone] at hlen ⊢
    rw [hcode, List.eq_nil_of_length_eq_zero hlen, Encoder.pad, if_pos rfl]

end FunctionWriter

namespace Code

theorem append_append (c : Code) (bs bs' : List UInt8) (fs fs' : List LabelFixup) :
    (c.append bs fs).append bs' fs' = c.append (bs ++ bs') (fs ++ fs') := by
  simp [append]

end Code

namespace Encoder.Ok

variable {E : Encoder} (hE : E.Ok)
include hE

/-- A jump leads to its target. -/
theorem jump_target {j : Jump} {long : Bool} {buf target : ℕ} (h : E.jump j long buf target ≠ [])
    (rest : List UInt8) :
    decodeJump (E.jump j long buf target ++ rest) =
      some ⟨j.cond, (E.jump j long buf target).length,
        (target : ℤ) - (buf + (E.jump j long buf target).length : ℕ)⟩ := by
  rw [Encoder.jump, Jump.cond] at *
  split at h <;> rename_i hj
  · rw [if_pos hj, if_pos hj]
    exact hE.jmp_target long buf target rest h
  · rw [if_neg hj, if_neg hj]
    exact hE.jcc_target long j.toCond buf target rest (Jump.toCond_lt hj) h

theorem jump_long {j : Jump} {buf target : ℕ} (h : E.jump j true buf target ≠ []) :
    ∃ disp, disp.length = 4 ∧ E.jump j true buf target = longOpcode j.cond ++ disp := by
  rw [Encoder.jump, Jump.cond] at *
  split at h <;> rename_i hj
  · rw [if_pos hj, if_pos hj]
    exact hE.jmp_long buf target h
  · rw [if_neg hj, if_neg hj]
    exact hE.jcc_long j.toCond buf target (Jump.toCond_lt hj) h

theorem jump_near (j : Jump) (long : Bool) {buf target : ℕ} (h : Near buf target) :
    E.jump j long buf target ≠ [] ∧ (E.jump j long buf target).length ≤ 6 := by
  rw [Encoder.jump]
  split <;> rename_i hj
  · exact ⟨hE.jmp_near long buf target h, hE.length_jmp long buf target⟩
  · exact ⟨hE.jcc_near long j.toCond buf target (Jump.toCond_lt hj) h, hE.length_jcc long j.toCond buf target⟩

end Encoder.Ok

namespace FunctionWriter

variable {E : Encoder} {A : Allocator} {w w' : FunctionWriter}

/-- A jump to a label that is not placed gets a fixup; one to a label that is placed goes there. -/
theorem generateRawJump_code {j : Jump} {label : ℕ} (h : w.generateRawJump E A j label = some w') :
    ∃ base,
      (w.code.Pending label ∧ E.jump j true (base + w.offset) (base + w.offset) ≠ [] ∧
        w'.code = w.code.append (E.jump j true (base + w.offset) (base + w.offset))
          [⟨label, (w'.offset - 4) % 2 ^ 32, .jmpOrMemDisp⟩]) ∨
      ∃ off, w.code.Placed label off ∧ E.jump j false (base + w.offset) (base + off.toNat) ≠ [] ∧
        w'.code = w.code.append (E.jump j false (base + w.offset) (base + off.toNat)) [] := by
  obtain ⟨v, hv, h⟩ := Option.bind_eq_some_iff.mp h
  obtain ⟨pending, hpending, h⟩ := Option.bind_eq_some_iff.mp h
  rw [← ensureSpace_code hv, ← offset_of_code (ensureSpace_code hv)]
  refine ⟨v.dataBegin, ?_⟩
  rw [← v.cur_eq]
  split at h
  · obtain ⟨u, hu, h⟩ := Option.bind_eq_some_iff.mp h
    obtain ⟨hbs, hu⟩ := encode_code hu
    obtain ⟨-, hcode⟩ := labelRef_code h
    refine .inl ⟨labelIsPending_iff.mp (hpending.trans (congrArg some ‹_›)), hbs, ?_⟩
    have hoff : w'.offset = u.offset := by
      rw [offset_append hcode, List.length_nil, Nat.add_zero, code, length_text]
    rw [hcode, hu, Code.append_append, List.append_nil, List.nil_append, hoff]
  · obtain ⟨off, hoff, h⟩ := Option.bind_eq_some_iff.mp h
    exact .inr ⟨off, labelOffset_iff.mp hoff, encode_code h⟩

theorem memDisp_code {bs : List UInt8} {label : ℕ} (h : w.memDisp A bs label = some w') :
    w.code.Pending label ∧ w'.code = w.code.append bs [⟨label, (w'.offset - 4) % 2 ^ 32, .jmpOrMemDisp⟩] := by
  obtain ⟨v, hv, h⟩ := Option.bind_eq_some_iff.mp h
  obtain ⟨hpending, hcode⟩ := labelRef_code h
  have hoff : w'.offset = v.offset := by
    rw [offset_append hcode, List.length_nil, Nat.add_zero, code, length_text]
  rw [(encode_code hv).2] at hpending hcode
  exact ⟨hpending, by rw [hcode, Code.append_append, List.append_nil, List.nil_append, hoff]⟩

theorem writeEntry_code {tableOff label : ℕ} (h : w.writeEntry A tableOff label = some w') :
    (w.code.Pending label ∧
      w'.code = w.code.append (ofNat 4 (tableOff % 2 ^ 32)) [⟨label, w.offset % 2 ^ 32, .jumpTable⟩]) ∨
      ∃ off, w.code.Placed label off ∧
        w'.code = w.code.append (ofNat 4 (off - BitVec.ofNat 32 tableOff).toNat) [] := by
  obtain ⟨pending, hpending, h⟩ := Option.bind_eq_some_iff.mp h
  split at h
  · obtain ⟨v, hv, h⟩ := Option.bind_eq_some_iff.mp h
    obtain ⟨hlabel, hcode⟩ := labelRef_code hv
    exact .inl ⟨hlabel, by rw [write_code h, hcode, Code.append_append, List.append_nil, List.nil_append]⟩
  · obtain ⟨off, hoff, h⟩ := Option.bind_eq_some_iff.mp h
    exact .inr ⟨off, labelOffset_iff.mp hoff, write_code h⟩

end FunctionWriter

end Tpde.Assembler.X64
