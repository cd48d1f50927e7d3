import Tpde.Assembler.EhWriter
import Tpde.Library.EhFrame

/-!
# The exception frames of an assembler

`eh_init_cie`, `eh_begin_fde` and `eh_end_fde` of `AssemblerElf`: a common information
entry is written when the personality function changes, and the entry of a function is
patched when the function ends. The records can be walked over up to the end of the
section (`frames_ok`); the terminator is not written by the assembler.
-/

namespace Tpde.Assembler

open Bytes EhFrame Cfi Util

/-! ### The model -/

/-- The part of `TargetInfo` for unwind information. The factors are one byte each. -/
structure TargetInfo where
  cieReturnAddrRegister : UInt8
  cieInstrs : List UInt8
  cieCodeAlignmentFactor : UInt8
  cieDataAlignmentFactor : UInt8
  relocPc32 : ℕ
  codeOneByte : cieCodeAlignmentFactor.toNat < 128
  dataOneByte : cieDataAlignmentFactor.toNat < 128

/-- `TARGET_INFO` of `AssemblerElfA64`: a function starts with its frame at the stack pointer. -/
def targetInfoA64 : TargetInfo where
  cieReturnAddrRegister := 30
  cieInstrs := ehWriteInst₂ dwCfaDefCfa 31 0
  cieCodeAlignmentFactor := 4
  cieDataAlignmentFactor := 120
  relocPc32 := 261
  codeOneByte := by decide
  dataOneByte := by decide

/-- `TARGET_INFO` of `AssemblerElfX64`: the return address is on the stack. -/
def targetInfoX64 : TargetInfo where
  cieReturnAddrRegister := 16
  cieInstrs := ehWriteInst₂ dwCfaDefCfa 7 8 ++ ehWriteInst₂ dwCfaOffset 16 1
  cieCodeAlignmentFactor := 1
  cieDataAlignmentFactor := 120
  relocPc32 := 2
  codeOneByte := by decide
  dataOneByte := by decide

/-- `Relocation`. -/
structure Relocation where
  offset : ℕ
  symbol : ℕ
  type : ℕ
  addend : ℤ
  deriving DecidableEq

/-- What the assembler knows of `.eh_frame`: what is written, the relocations, where the common entry is,
where the first entry of a function is, and the personality function. An invalid symbol is 0. -/
structure EhState where
  data : List UInt8
  relocs : List Relocation
  ehCurCieOff : ℕ
  ehFirstFdeOff : ℕ
  curPersonalityFuncAddr : ℕ
  deriving DecidableEq

/-- `DW_EH_PE_pcrel`, `DW_EH_PE_indirect` and `DW_EH_PE_sdata4`. -/
def dwEhPePcrel : UInt8 := 0x10
def dwEhPeIndirect : UInt8 := 0x80
def dwEhPeSdata4 : UInt8 := 0x0b

/-- Bytes that are written over others. -/
def patch (data : List UInt8) (off : ℕ) (bs : List UInt8) : List UInt8 :=
  data.take off ++ bs ++ data.drop (off + bs.length)

/-- The start of a common entry, up to the augmentation's length. -/
def cieHead (target : TargetInfo) (personality : ℕ) : List UInt8 :=
  [0, 0, 0, 0] ++ ofNat 4 0 ++ [1] ++ (if personality = 0 then [0x7a, 0x52]
    else [0x7a, 0x50, 0x4c, 0x52]) ++ [0] ++
    [target.cieCodeAlignmentFactor, target.cieDataAlignmentFactor, target.cieReturnAddrRegister,
      if personality = 0 then 1 else 7]

namespace EhState

/-- What is written so far, extended. -/
def write (st : EhState) (bs : List UInt8) : EhState := { st with data := st.data ++ bs }

/-- `reloc_sec`, for this section. -/
def relocSec (st : EhState) (symbol type offset : ℕ) (addend : ℤ) : EhState :=
  { st with relocs := st.relocs ++ [⟨offset, symbol, type, addend⟩] }

/-- `eh_init_cie`. -/
def ehInitCie (target : TargetInfo) (st : EhState) (personality : ℕ) : EhState :=
  let first := st.data.length = 0
  let off := st.data.length
  let st := { st with ehCurCieOff := off }
  let st := st.write (cieHead target personality)
  let st :=
    if personality = 0 then st
    else
      let st := st.write [dwEhPePcrel ||| dwEhPeSdata4 ||| dwEhPeIndirect]
      let st := st.relocSec personality target.relocPc32 st.data.length 0
      (st.write (ofNat 4 0)).write [dwEhPePcrel ||| dwEhPeSdata4]
  let st := st.write [dwEhPeSdata4 ||| dwEhPePcrel]
  let st := st.write target.cieInstrs
  let st := st.write (ehAlignFrame st.data.length)
  let st := { st with data := patch st.data off (ofNat 4 (st.data.length - off - 4)) }
  if first then { st with ehFirstFdeOff := st.data.length } else st

/-- `eh_begin_fde`, with the offset of the entry. -/
def ehBeginFde (target : TargetInfo) (st : EhState) (personality : ℕ) : EhState × ℕ :=
  let st :=
    if personality ≠ st.curPersonalityFuncAddr then
      { st.ehInitCie target personality with curPersonalityFuncAddr := personality }
    else st
  let fdeOff := st.data.length
  let st := st.write (List.replicate (if st.curPersonalityFuncAddr = 0 then 17 else 21) 0)
  let st := { st with data := patch st.data (fdeOff + 4) (ofNat 4 (fdeOff - st.ehCurCieOff + 4)) }
  let st := if st.curPersonalityFuncAddr = 0 then st else { st with data := patch st.data (fdeOff + 16) [4] }
  (st, fdeOff)

/-- `eh_end_fde`, for a function at `value` in the section with the symbol `secSym`. The data of the
function is at `exceptOff` in the section with the symbol `exceptSym`. -/
def ehEndFde (target : TargetInfo) (st : EhState) (fdeStart secSym value size exceptSym exceptOff : ℕ) :
    EhState :=
  let st := st.write (ehAlignFrame st.data.length)
  let st := st.relocSec secSym target.relocPc32 (fdeStart + 8) value
  let st := { st with data := patch st.data (fdeStart + 12) (ofNat 4 size) }
  let len := st.data.length - fdeStart - 4
  let st := { st with data := patch st.data fdeStart (ofNat 4 len) }
  if st.curPersonalityFuncAddr = 0 then st
  else st.relocSec exceptSym target.relocPc32 (fdeStart + 17) exceptOff

end EhState

/-- A function: its personality, its call frame instructions, where it is, and where its data is. -/
structure EhFunc where
  personality : ℕ
  cfi : List UInt8
  secSym : ℕ
  value : ℕ
  size : ℕ
  exceptSym : ℕ
  exceptOff : ℕ
  deriving DecidableEq

/-- The calls for a function. -/
def EhState.emitFunc (target : TargetInfo) (st : EhState) (func : EhFunc) : EhState :=
  let (st, fdeOff) := st.ehBeginFde target func.personality
  let st := st.write func.cfi
  st.ehEndFde target fdeOff func.secSym func.value func.size func.exceptSym func.exceptOff

/-- The calls for functions, from a new assembler on. -/
def ehRun (target : TargetInfo) (funcs : List EhFunc) : EhState :=
  funcs.foldl (EhState.emitFunc target) (EhState.ehInitCie target ⟨[], [], 0, 0, 0⟩ 0)

/-! ### What the section should be -/

/-- What a record is for. -/
inductive FrameEntry where
  | cie (personality : ℕ)
  | fde (func : EhFunc)
  deriving DecidableEq

/-- The records for functions, behind those for personality `cur`. -/
def entriesFrom : ℕ → List EhFunc → List FrameEntry
  | _, [] => []
  | cur, func :: funcs =>
    (if func.personality ≠ cur then [.cie func.personality] else []) ++
      .fde func :: entriesFrom func.personality funcs

/-- The records for functions, and the first one. -/
def entries (funcs : List EhFunc) : List FrameEntry := .cie 0 :: entriesFrom 0 funcs

/-- A record, with its relocations. -/
structure Item where
  record : Rec
  entry : FrameEntry
  relocs : List Relocation

/-- The record is a common entry for the personality. -/
structure CieOk (target : TargetInfo) (sym : ℕ) (record : Rec) (cie : Cie) : Prop where
  read : readCie record.body = some cie
  codeAlign : cie.codeAlign = target.cieCodeAlignmentFactor.toNat
  returnReg : cie.returnReg = target.cieReturnAddrRegister
  personality : cie.aug.personality.map Prod.fst =
    if sym = 0 then none else some (dwEhPePcrel ||| dwEhPeSdata4 ||| dwEhPeIndirect)
  lsda : cie.aug.lsda = if sym = 0 then none else some (dwEhPePcrel ||| dwEhPeSdata4)
  fde : cie.aug.fde = some (dwEhPeSdata4 ||| dwEhPePcrel)
  insts : ∃ n, cie.insts = target.cieInstrs ++ List.replicate n dwCfaNop

/-- The record is what it is for, its relocations are for the fields that are announced, and there are no
others. The entry of a function is read with the common entry that was written for its personality. -/
def ItemOk (target : TargetInfo) (items : List Item) (item : Item) : Prop :=
  match item.entry with
  | .cie personality => ∃ cie, CieOk target personality item.record cie ∧
      item.relocs = (cie.aug.personality.map fun x =>
        (⟨item.record.off + 4 + x.2, personality, target.relocPc32, 0⟩ : Relocation)).toList
  | .fde func => ∃ common ∈ items, common.entry = .cie func.personality ∧ ∃ cie,
    CieOk target func.personality common.record cie ∧
      ∃ fde, readFde item.record.off cie.aug item.record.body = some fde ∧ fde.cieOff = common.record.off ∧
        fde.pcRange = func.size ∧ (∃ n, fde.insts = func.cfi ++ List.replicate n dwCfaNop) ∧
        item.relocs = ⟨item.record.off + 8, func.secSym, target.relocPc32, func.value⟩ ::
          (fde.lsda.map fun field =>
            (⟨item.record.off + 4 + field, func.exceptSym, target.relocPc32,
              func.exceptOff⟩ : Relocation)).toList

/-- The section consists of the records for the functions. -/
def FramesOk (target : TargetInfo) (st : EhState) (expected : List FrameEntry) : Prop :=
  ∃ items : List Item, records st.data = some (items.map Item.record, false) ∧
    records (st.data ++ [0, 0, 0, 0]) = some (items.map Item.record, true) ∧
    items.map Item.entry = expected ∧ st.relocs = items.flatMap Item.relocs ∧
    ∀ item ∈ items, 8 ∣ item.record.off ∧ 8 ∣ 4 + item.record.body.length ∧ ItemOk target items item

/-! ### The records that are written -/

theorem patch_eq {data pre old post bs : List UInt8} {off : ℕ} (h : data = pre ++ (old ++ post))
    (hoff : off = pre.length)
    (hlen : bs.length = old.length) : patch data off bs = pre ++ (bs ++ post) := by
  rw [patch, h, hoff, hlen, List.take_left, ← List.append_assoc pre old post, ← List.length_append,
    List.drop_left,
    List.append_assoc]

theorem length_ehAlignFrame (size : ℕ) : 8 ∣ size + (ehAlignFrame size).length := by
  rw [ehAlignFrame, List.length_replicate]
  omega

/-- The body of a common entry. -/
def cieBody (target : TargetInfo) (personality n : ℕ) : List UInt8 :=
  (cieHead target personality).drop 4 ++
    ((if personality = 0 then [0x1b] else [0x9b, 0, 0, 0, 0, 0x1b, 0x1b]) ++
      (target.cieInstrs ++ List.replicate n dwCfaNop))

/-- The relocation of a common entry's personality. -/
def cieRelocs (target : TargetInfo) (personality off : ℕ) : List Relocation :=
  if personality = 0 then [] else [⟨off + 19, personality, target.relocPc32, 0⟩]

section
variable {target : TargetInfo} {st : EhState} {personality : ℕ}

/-- What `eh_init_cie` writes. -/
theorem ehInitCie_spec (h8 : 8 ∣ st.data.length) : ∃ n,
    (st.ehInitCie target personality).data = st.data ++ Rec.bytes ⟨st.data.length,
      cieBody target personality n⟩ ∧
      8 ∣ 4 + (cieBody target personality n).length ∧
      (st.ehInitCie target personality).relocs = st.relocs ++ cieRelocs target personality st.data.length ∧
      (st.ehInitCie target personality).ehCurCieOff = st.data.length ∧
      (st.ehInitCie target personality).curPersonalityFuncAddr = st.curPersonalityFuncAddr := by
  -- what is written in front of the padding
  set inner := st.data ++ (cieHead target personality ++
    ((if personality = 0 then [0x1b] else [0x9b, 0, 0, 0, 0, 0x1b, 0x1b]) ++ target.cieInstrs)) with hinner
  have hhead : cieHead target personality = [0, 0, 0, 0] ++ (cieHead target personality).drop 4 := rfl
  have hdata : inner ++ ehAlignFrame inner.length =
      st.data ++ ([0, 0, 0, 0] ++ cieBody target personality ((8 - inner.length % 8) % 8)) := by
    rw [hinner, hhead, cieBody, ehAlignFrame]
    simp only [List.append_assoc]
  have hlen : (inner ++ ehAlignFrame inner.length).length - st.data.length - 4 =
      (cieBody target personality ((8 - inner.length % 8) % 8)).length := by
    rw [hdata, List.length_append, List.length_append]
    simp
  have hdvd := length_ehAlignFrame inner.length
  rw [← List.length_append, hdata, List.length_append, List.length_append] at hdvd
  have hpatch :=
    @patch_eq _ _ _ _ (ofNat 4 (cieBody target personality ((8 - inner.length % 8) % 8)).length) _ hdata rfl
    (length_ofNat _ _)
  have hwritten : ∃ first, st.ehInitCie target personality =
      ⟨patch (inner ++ ehAlignFrame inner.length) st.data.length
        (ofNat 4 ((inner ++ ehAlignFrame inner.length).length - st.data.length - 4)),
        st.relocs ++ cieRelocs target personality st.data.length, st.data.length, first,
          st.curPersonalityFuncAddr⟩ := by
    rw [EhState.ehInitCie, cieRelocs]
    by_cases h0 : personality = 0
    · simp only [if_pos h0, EhState.write] at hinner ⊢
      have hw :
        st.data ++ cieHead target personality ++ [dwEhPeSdata4 ||| dwEhPePcrel] ++ target.cieInstrs =
        inner := by
        rw [hinner]
        simp only [List.append_assoc]
        rfl
      rw [hw, List.append_nil]
      split
      · exact ⟨_, rfl⟩
      · exact ⟨_, rfl⟩
    · simp only [if_neg h0, EhState.write, EhState.relocSec] at hinner ⊢
      have hw :
        st.data ++ cieHead target personality ++ [dwEhPePcrel ||| dwEhPeSdata4 ||| dwEhPeIndirect] ++
        ofNat 4 0 ++
          [dwEhPePcrel ||| dwEhPeSdata4] ++ [dwEhPeSdata4 ||| dwEhPePcrel] ++ target.cieInstrs = inner := by
        rw [hinner]
        simp only [List.append_assoc]
        rfl
      have hoff :
        (st.data ++ cieHead target personality ++ [dwEhPePcrel ||| dwEhPeSdata4 ||| dwEhPeIndirect]).length =
          st.data.length + 19 := by
        simp [cieHead, h0]
      rw [hw, hoff]
      split
      · exact ⟨_, rfl⟩
      · exact ⟨_, rfl⟩
  obtain ⟨first, hst⟩ := hwritten
  rw [hst]
  refine ⟨(8 - inner.length % 8) % 8, ?_, ?_, rfl, rfl, rfl⟩
  · show patch _ _ _ = _
    rw [hlen, hpatch]
    rfl
  · exact (Nat.dvd_add_right h8).mp hdvd

/-- A common entry is read back. -/
theorem readCie_cieBody (target : TargetInfo) (personality n off : ℕ) : ∃ cie,
    CieOk target personality ⟨off, cieBody target personality n⟩ cie ∧
      cieRelocs target personality off = (cie.aug.personality.map fun x =>
        (⟨off + 4 + x.2, personality, target.relocPc32, 0⟩ : Relocation)).toList := by
  obtain ⟨v, hv⟩ : ∃ v, ∀ rest, Leb128.readSleb (target.cieDataAlignmentFactor :: rest) = some (v, rest) := by
    rcases Nat.lt_or_ge target.cieDataAlignmentFactor.toNat 64 with hlt | hge
    · exact ⟨_, Leb128.isSleb_last hlt⟩
    · exact ⟨_, Leb128.isSleb_last_neg hge target.dataOneByte⟩
  have hcode : ∀ rest, Leb128.readUleb (target.cieCodeAlignmentFactor :: rest) =
      some (target.cieCodeAlignmentFactor.toNat, rest) := Leb128.isUleb_last target.codeOneByte
  by_cases h0 : personality = 0
  · refine ⟨⟨target.cieCodeAlignmentFactor.toNat, v, target.cieReturnAddrRegister, ⟨none, none, some 0x1b⟩,
      target.cieInstrs ++ List.replicate n dwCfaNop⟩, ⟨?_, rfl, rfl, ?_, ?_, rfl, n, rfl⟩, ?_⟩
    · have hbody : cieBody target personality n = 0 :: 0 :: 0 :: 0 :: 1 :: 0x7a :: 0x52 :: 0 ::
          target.cieCodeAlignmentFactor :: target.cieDataAlignmentFactor ::
            target.cieReturnAddrRegister :: 1 :: 0x1b ::
          (target.cieInstrs ++ List.replicate n dwCfaNop) := by
        simp [cieBody, cieHead, h0, ofNat]
      show readCie (cieBody target personality n) = _
      rw [hbody]
      show readCieTail _ [0x52] (target.cieCodeAlignmentFactor :: _) = _
      rw [readCieTail, hcode]
      show (Leb128.readSleb (target.cieDataAlignmentFactor :: _)).bind _ = _
      rw [hv]
      rfl
    · rw [if_pos h0]
      rfl
    · rw [if_pos h0]
    · rw [cieRelocs, if_pos h0]
      rfl
  · refine ⟨⟨target.cieCodeAlignmentFactor.toNat, v, target.cieReturnAddrRegister,
      ⟨some (0x9b, 15), some 0x1b, some 0x1b⟩,
      target.cieInstrs ++ List.replicate n dwCfaNop⟩, ⟨?_, rfl, rfl, ?_, ?_, rfl, n, rfl⟩, ?_⟩
    · have hbody :
        cieBody target personality n = 0 :: 0 :: 0 :: 0 :: 1 :: 0x7a :: 0x50 :: 0x4c :: 0x52 :: 0 ::
          target.cieCodeAlignmentFactor :: target.cieDataAlignmentFactor ::
            target.cieReturnAddrRegister :: 7 ::
          0x9b :: 0 :: 0 :: 0 :: 0 :: 0x1b :: 0x1b :: (target.cieInstrs ++ List.replicate n dwCfaNop) := by
        simp [cieBody, cieHead, h0, ofNat]
      show readCie (cieBody target personality n) = _
      rw [hbody]
      show readCieTail _ [0x50, 0x4c, 0x52] (target.cieCodeAlignmentFactor :: _) = _
      rw [readCieTail, hcode]
      show (Leb128.readSleb (target.cieDataAlignmentFactor :: _)).bind _ = _
      rw [hv]
      generalize target.cieInstrs ++ List.replicate n dwCfaNop = insts
      have haug :
        readAugmentation [0x50, 0x4c, 0x52] 14 (0x9b :: 0 :: 0 :: 0 :: 0 :: 0x1b :: 0x1b :: insts) {} =
          some ⟨some (0x9b, 15), some 0x1b, some 0x1b⟩ := rfl
      simp [haug, Leb128.readUleb]
    · rw [if_neg h0]
      rfl
    · rw [if_neg h0]
      rfl
    · rw [cieRelocs, if_neg h0]
      rfl

end

/-! ### The entry of a function -/

/-- The augmentation's length, and the field for the data of the function. -/
def fdeFields (personality : ℕ) : List UInt8 := if personality = 0 then [0] else [4, 0, 0, 0, 0]

/-- The body of the entry of a function, `dist` behind its common entry. -/
def fdeBody (dist : ℕ) (func : EhFunc) (n : ℕ) : List UInt8 :=
  ofNat 4 dist ++ ([0, 0, 0, 0] ++ (ofNat 4 func.size ++
    (fdeFields func.personality ++ (func.cfi ++ List.replicate n dwCfaNop))))

/-- The relocations of the entry of a function. -/
def fdeRelocs (target : TargetInfo) (func : EhFunc) (off : ℕ) : List Relocation :=
  ⟨off + 8, func.secSym, target.relocPc32, func.value⟩ ::
    if func.personality = 0 then [] else [⟨off + 17, func.exceptSym, target.relocPc32, func.exceptOff⟩]

section
variable {target : TargetInfo} {st : EhState} {func : EhFunc}

/-- What the calls for a function write behind a common entry for its personality. -/
theorem emitFunc_same (h8 : 8 ∣ st.data.length) (hcur : st.curPersonalityFuncAddr = func.personality) : ∃ n,
    (st.emitFunc target func).data = st.data ++
        Rec.bytes ⟨st.data.length, fdeBody (st.data.length - st.ehCurCieOff + 4) func n⟩ ∧
      8 ∣ 4 + (fdeBody (st.data.length - st.ehCurCieOff + 4) func n).length ∧
      (st.emitFunc target func).relocs = st.relocs ++ fdeRelocs target func st.data.length ∧
      (st.emitFunc target func).ehCurCieOff = st.ehCurCieOff ∧
      (st.emitFunc target func).curPersonalityFuncAddr = func.personality := by
  set dist := st.data.length - st.ehCurCieOff + 4 with hdist
  have hbegin : st.ehBeginFde target func.personality =
      ({ st with
        data :=
          st.data ++
            ([0, 0, 0, 0] ++
            (ofNat 4 dist ++ ([0, 0, 0, 0] ++ ([0, 0, 0, 0] ++ fdeFields func.personality)))) },
        st.data.length) := by
    rw [EhState.ehBeginFde, if_neg (not_not.mpr hcur.symm)]
    simp only [EhState.write, hcur, fdeFields]
    by_cases h0 : func.personality = 0
    · simp only [if_pos h0]
      rw [@patch_eq _ (st.data ++ [0, 0, 0, 0]) [0, 0, 0, 0] ([0, 0, 0, 0] ++ ([0, 0, 0, 0] ++ [0]))
        (ofNat 4 dist) _
        (by rw [List.append_assoc]; rfl) (by simp) (by simp), List.append_assoc]
    · simp only [if_neg h0]
      rw [@patch_eq _ (st.data ++ [0, 0, 0, 0]) [0, 0, 0,
        0] ([0, 0, 0, 0] ++ ([0, 0, 0, 0] ++ [0, 0, 0, 0, 0]))
        (ofNat 4 dist) _ (by rw [List.append_assoc]; rfl) (by simp) (by simp)]
      rw [@patch_eq _ (st.data ++ ([0, 0, 0, 0] ++ (ofNat 4 dist ++ ([0, 0, 0, 0] ++ [0, 0, 0, 0]))))
        [0] [0, 0, 0, 0] [4] _
        (by simp only [List.append_assoc]; rfl) (by simp) rfl]
      simp only [List.append_assoc]
      rfl
  -- what is written in front of the padding
  set inner :=
    st.data ++
      ([0, 0, 0, 0] ++
      (ofNat 4 dist ++ ([0, 0, 0, 0] ++ ([0, 0, 0, 0] ++ fdeFields func.personality)))) ++ func.cfi
    with hinner
  have hsize : patch (inner ++ ehAlignFrame inner.length) (st.data.length + 12) (ofNat 4 func.size) =
      st.data ++ ([0, 0, 0, 0] ++ fdeBody dist func ((8 - inner.length % 8) % 8)) := by
    rw [@patch_eq _ (st.data ++ ([0, 0, 0, 0] ++ (ofNat 4 dist ++ [0, 0, 0, 0]))) [0, 0, 0, 0]
      (fdeFields func.personality ++ (func.cfi ++ ehAlignFrame inner.length)) (ofNat 4 func.size) _
      (by rw [hinner]; simp only [List.append_assoc]) (by simp) (by simp)]
    rw [fdeBody, ehAlignFrame]
    simp only [List.append_assoc]
  have hlen :
    (st.data ++ ([0, 0, 0, 0] ++ fdeBody dist func ((8 - inner.length % 8) % 8))).length -
    st.data.length - 4 =
      (fdeBody dist func ((8 - inner.length % 8) % 8)).length := by
    rw [List.length_append, List.length_append]
    simp
  have hdvd := length_ehAlignFrame inner.length
  have hinnerLen : inner.length + (ehAlignFrame inner.length).length =
      st.data.length + (4 + (fdeBody dist func ((8 - inner.length % 8) % 8)).length) := by
    have hleft :
      inner.length = st.data.length + 16 + (fdeFields func.personality).length + func.cfi.length := by
      rw [hinner]
      simp only [List.length_append, length_ofNat, List.length_cons, List.length_nil]
      omega
    have hright (n : ℕ) : (fdeBody dist func n).length =
        12 + (fdeFields func.personality).length + func.cfi.length + n := by
      rw [fdeBody]
      simp only [List.length_append, length_ofNat, List.length_cons, List.length_nil, List.length_replicate]
      omega
    have hpad : (ehAlignFrame inner.length).length = (8 - inner.length % 8) % 8 := List.length_replicate
    rw [hright, hpad]
    omega
  rw [hinnerLen] at hdvd
  have hend : st.emitFunc target func = { st with
      data := st.data ++ Rec.bytes ⟨st.data.length, fdeBody dist func ((8 - inner.length % 8) % 8)⟩
      relocs := st.relocs ++ fdeRelocs target func st.data.length } := by
    simp only [EhState.emitFunc, hbegin, EhState.ehEndFde, EhState.write, EhState.relocSec, ← hinner,
      hsize, hlen]
    rw [@patch_eq _ st.data [0, 0, 0, 0] (fdeBody dist func ((8 - inner.length % 8) % 8)) (ofNat 4 _)
      _ rfl rfl
      (length_ofNat _ _), hcur, fdeRelocs]
    split
    · rfl
    · simp only [List.append_assoc]
      rfl
  rw [hend]
  exact ⟨_, rfl, (Nat.dvd_add_right h8).mp hdvd, rfl, rfl, hcur⟩

/-- A function with another personality has a common entry of its own. -/
theorem emitFunc_other (hcur : st.curPersonalityFuncAddr ≠ func.personality) :
    st.emitFunc target func = EhState.emitFunc target
      { st.ehInitCie target func.personality with curPersonalityFuncAddr := func.personality } func := by
  simp only [EhState.emitFunc, EhState.ehBeginFde, if_pos hcur.symm, ne_eq, not_true_eq_false, if_false]

/-- The entry of a function is read back. -/
theorem readFde_fdeBody {dist n off : ℕ} {cie : Cie} {record : Rec}
    (hcie : CieOk target func.personality record cie)
    (hdist : 0 < dist) (hoff : dist ≤ off + 4) (hlt : dist < 2 ^ 32) (hsize : func.size < 2 ^ 32) :
    ∃ fde, readFde off cie.aug (fdeBody dist func n) = some fde ∧ fde.cieOff = off + 4 - dist ∧
      fde.pcRange = func.size ∧
      fde.insts = func.cfi ++ List.replicate n dwCfaNop ∧
      fdeRelocs target func off = ⟨off + 8, func.secSym, target.relocPc32, func.value⟩ ::
        (fde.lsda.map fun field =>
          (⟨off + 4 + field, func.exceptSym, target.relocPc32, func.exceptOff⟩ : Relocation)).toList := by
  have hid : toNat ((fdeBody dist func n).take 4) = dist := by
    rw [fdeBody, List.take_left' (length_ofNat 4 dist), toNat_ofNat,
      Nat.mod_eq_of_lt (show dist < 256 ^ 4 from hlt)]
  have hrange : toNat (((fdeBody dist func n).drop 8).take 4) = func.size := by
    have hsplit : (fdeBody dist func n).drop 8 = ofNat 4 func.size ++
        (fdeFields func.personality ++ (func.cfi ++ List.replicate n dwCfaNop)) := by
      rw [fdeBody, ← List.append_assoc, List.drop_left' (by rw [List.length_append, length_ofNat]; rfl)]
    rw [hsplit, List.take_left' (length_ofNat 4 _), toNat_ofNat,
      Nat.mod_eq_of_lt (show func.size < 256 ^ 4 from hsize)]
  have hdrop : (fdeBody dist func n).drop 12 =
      fdeFields func.personality ++ (func.cfi ++ List.replicate n dwCfaNop) := by
    rw [fdeBody, ← List.append_assoc, ← List.append_assoc, List.drop_left' (by simp)]
  have hlen : (fdeBody dist func n).length = 12 + (fdeFields func.personality ++
      (func.cfi ++ List.replicate n dwCfaNop)).length := by
    rw [fdeBody]
    simp only [List.length_append, length_ofNat, List.length_cons, List.length_nil]
    omega
  have hfde : cie.aug.fde.map (fun enc => enc &&& 0x0f) = some 0x0b := by
    rw [hcie.fde]
    rfl
  rw [readFde]
  simp only [hid, hrange, hdrop, hlen, hcie.lsda, fdeFields]
  rw [if_neg (by rw [hfde]; simp; omega), fdeRelocs]
  by_cases h0 : func.personality = 0
  · simp only [if_pos h0]
    exact ⟨_, rfl, rfl, rfl, rfl, rfl⟩
  · simp only [if_neg h0]
    set rest := func.cfi ++ List.replicate n dwCfaNop
    have hread : Leb128.readUleb ([4, 0, 0, 0, 0] ++ rest) = some (4, [0, 0, 0, 0] ++ rest) := rfl
    have hfield : 12 + ([4, 0, 0, 0, 0] ++ rest).length - ([0, 0, 0, 0] ++ rest).length = 13 := by
      simp only [List.length_append, List.length_cons, List.length_nil]
      omega
    rw [hread, Option.bind_some]
    simp only [hfield]
    rw [if_pos (by decide)]
    exact ⟨_, rfl, rfl, rfl, rfl, rfl⟩

end

/-! ### The section -/

section
variable {target : TargetInfo} {st : EhState} {expected : List FrameEntry}

/-- The section is made of records. -/
structure RecordsInv (target : TargetInfo) (st : EhState) (expected : List FrameEntry)
    (items : List Item) : Prop where
  data : st.data = (items.map Item.record).flatMap Rec.bytes
  aligned : 8 ∣ st.data.length
  placed : Placed 0 (items.map Item.record)
  entries : items.map Item.entry = expected
  relocs : st.relocs = items.flatMap Item.relocs
  ok : ∀ item ∈ items, 8 ∣ item.record.off ∧ 8 ∣ 4 + item.record.body.length ∧ ItemOk target items item

/-- What holds between functions: the section is made of records, and the last common entry is known. -/
structure FramesInv (target : TargetInfo) (st : EhState) (expected : List FrameEntry)
    (items : List Item) : Prop
    extends RecordsInv target st expected items where
  cur : ∃ common ∈ items, common.entry = .cie st.curPersonalityFuncAddr ∧ common.record.off = st.ehCurCieOff ∧
    common.record.off < st.data.length ∧ ∃ cie, CieOk target st.curPersonalityFuncAddr common.record cie

theorem ItemOk.mono {items items' : List Item} {item : Item} (h : ItemOk target items item)
    (hsub : ∀ x ∈ items, x ∈ items') :
    ItemOk target items' item := by
  rw [ItemOk] at h ⊢
  split at h
  · exact h
  · obtain ⟨common, hcommon, hrest⟩ := h
    exact ⟨common, hsub common hcommon, hrest⟩

/-- A record is added. -/
theorem RecordsInv.snoc {items : List Item} {st' : EhState} {body : List UInt8} {entry : FrameEntry}
    {relocs : List Relocation}
    (h : RecordsInv target st expected items) (hdata : st'.data = st.data ++ Rec.bytes ⟨st.data.length, body⟩)
    (h8 : 8 ∣ 4 + body.length) (hlt : st'.data.length < 2 ^ 32) (hrelocs : st'.relocs = st.relocs ++ relocs)
    (hok : ItemOk target (items ++ [⟨⟨st.data.length, body⟩, entry, relocs⟩]) ⟨⟨st.data.length, body⟩,
      entry, relocs⟩)
    (hcur : ∃ common ∈ items ++ [⟨⟨st.data.length, body⟩, entry, relocs⟩],
      common.entry = .cie st'.curPersonalityFuncAddr ∧
      common.record.off = st'.ehCurCieOff ∧ common.record.off < st'.data.length ∧
      ∃ cie, CieOk target st'.curPersonalityFuncAddr common.record cie) :
    FramesInv target st' (expected ++ [entry]) (items ++ [⟨⟨st.data.length, body⟩, entry, relocs⟩]) := by
  have hlen : st'.data.length = st.data.length + (4 + body.length) := by
    rw [hdata, List.length_append, Rec.length_bytes]
  refine ⟨⟨?_, ?_, ?_, ?_, ?_, ?_⟩, ?_⟩
  · rw [hdata, h.data, List.map_append, List.flatMap_append]
    simp
  · rw [hlen]
    exact Dvd.dvd.add h.aligned h8
  · rw [List.map_append]
    refine h.placed.append ?_
    rw [← h.data, Nat.zero_add]
    refine ⟨rfl, ?_, ?_, trivial⟩
    · show 0 < body.length
      omega
    · show body.length < 2 ^ 32
      omega
  · rw [List.map_append, h.entries]
    rfl
  · rw [hrelocs, h.relocs, List.flatMap_append]
    simp
  · intro item hitem
    rcases List.mem_append.mp hitem with hitem | hitem
    · obtain ⟨hoff, hbody, hok⟩ := h.ok item hitem
      exact ⟨hoff, hbody, hok.mono fun r hr => List.mem_append_left _ hr⟩
    · obtain rfl := List.mem_singleton.mp hitem
      exact ⟨h.aligned, h8, hok⟩
  · exact hcur

/-- A common entry is written. -/
theorem RecordsInv.initCie {items : List Item} {personality : ℕ} (h : RecordsInv target st expected items)
    (hlt : (st.ehInitCie target personality).data.length < 2 ^ 32) :
    ∃ items', FramesInv target { st.ehInitCie target personality with curPersonalityFuncAddr := personality }
      (expected ++ [.cie personality]) items' := by
  obtain ⟨n, hdata, h8, hrelocs, hoff, -⟩ := @ehInitCie_spec target st personality h.aligned
  obtain ⟨cie, hcie, hcieRelocs⟩ := readCie_cieBody target personality n st.data.length
  have hlen := congrArg List.length hdata
  rw [List.length_append, Rec.length_bytes] at hlen
  refine ⟨_, @RecordsInv.snoc _ _ _ _ { st.ehInitCie target personality with
    curPersonalityFuncAddr := personality } _
    (.cie personality) _ h hdata h8 hlt hrelocs ⟨cie, hcie, hcieRelocs⟩ ?_⟩
  refine ⟨⟨⟨st.data.length, cieBody target personality n⟩, .cie personality,
    cieRelocs target personality st.data.length⟩,
    List.mem_append_right _ List.mem_cons_self, rfl, hoff.symm, ?_, cie, hcie⟩
  show st.data.length < (st.ehInitCie target personality).data.length
  omega

/-- A function is written, behind a common entry for its personality. -/
theorem FramesInv.emitSame {items : List Item} {func : EhFunc} (h : FramesInv target st expected items)
    (hcur : st.curPersonalityFuncAddr = func.personality)
    (hlt : (st.emitFunc target func).data.length < 2 ^ 32)
    (hsize : func.size < 2 ^ 32) :
    ∃ items', FramesInv target (st.emitFunc target func) (expected ++ [.fde func]) items' := by
  obtain ⟨n, hdata, h8, hrelocs, hoff, hcur'⟩ := @emitFunc_same target st func h.aligned hcur
  have hlen := congrArg List.length hdata
  rw [List.length_append, Rec.length_bytes] at hlen
  obtain ⟨common, hcommon, hentry, hrecOff, hrecLt, cie, hcie⟩ := h.cur
  rw [hcur] at hcie hentry
  obtain ⟨fde, hread, hcieOff, hrange, hinsts, hfdeRelocs⟩ := @readFde_fdeBody target func
    (st.data.length - st.ehCurCieOff + 4) n st.data.length cie common.record
      hcie (by omega) (by omega) (by omega) hsize
  refine ⟨_, @RecordsInv.snoc _ _ _ _ _ _ (.fde func) _ h.toRecordsInv hdata h8 hlt hrelocs ?_ ?_⟩
  · refine ⟨common, List.mem_append_left _ hcommon, hentry, cie, hcie, fde, hread, ?_, hrange,
      ⟨n, hinsts⟩, hfdeRelocs⟩
    rw [hcieOff]
    omega
  · refine ⟨common, List.mem_append_left _ hcommon, ?_, hrecOff.trans hoff.symm, by omega, cie, ?_⟩
    · rwa [hcur']
    · rwa [hcur']

/-- What the calls for a function do to the length. -/
theorem emitFunc_length (target : TargetInfo) (func : EhFunc) (h8 : 8 ∣ st.data.length) :
    8 ∣ (st.emitFunc target func).data.length ∧
      (st.emitFunc target func).curPersonalityFuncAddr = func.personality ∧
      (if func.personality ≠ st.curPersonalityFuncAddr then st.ehInitCie target func.personality
        else st).data.length ≤
        (st.emitFunc target func).data.length ∧
      st.data.length ≤ (st.emitFunc target func).data.length := by
  by_cases hcur : st.curPersonalityFuncAddr = func.personality
  · obtain ⟨n, hdata, hn, -, -, hcur'⟩ := @emitFunc_same target st func h8 hcur
    rw [if_neg (not_not.mpr hcur.symm), hdata, List.length_append, Rec.length_bytes]
    exact ⟨Dvd.dvd.add h8 hn, hcur', Nat.le_add_right _ _, Nat.le_add_right _ _⟩
  · obtain ⟨m, hdata₁, hm, -⟩ := @ehInitCie_spec target st func.personality h8
    rw [emitFunc_other hcur, if_pos (Ne.symm hcur)]
    have h8' : 8 ∣ (st.ehInitCie target func.personality).data.length := by
      rw [hdata₁, List.length_append, Rec.length_bytes]
      exact Dvd.dvd.add h8 hm
    obtain ⟨n, hdata, hn, -, -, hcur'⟩ := @emitFunc_same target
      { st.ehInitCie target func.personality with curPersonalityFuncAddr := func.personality } func h8' rfl
    have hle : st.data.length ≤ (st.ehInitCie target func.personality).data.length := by
      rw [hdata₁, List.length_append]
      exact Nat.le_add_right _ _
    rw [hdata, List.length_append, Rec.length_bytes]
    exact ⟨Dvd.dvd.add h8' hn, hcur', Nat.le_add_right _ _, hle.trans (Nat.le_add_right _ _)⟩

theorem length_le_foldl : ∀ (funcs : List EhFunc) {st : EhState}, 8 ∣ st.data.length →
    st.data.length ≤ (funcs.foldl (EhState.emitFunc target) st).data.length
  | [], _, _ => le_rfl
  | func :: funcs, st, h8 => by
    obtain ⟨h8', -, -, hle⟩ := emitFunc_length target func h8
    exact hle.trans (length_le_foldl funcs h8')

/-- **The functions** are written one after the other. -/
theorem FramesInv.foldl :
    ∀ {funcs : List EhFunc} {st : EhState} {expected : List FrameEntry} {items : List Item},
    FramesInv target st expected items → (funcs.foldl (EhState.emitFunc target) st).data.length < 2 ^ 32 →
      (∀ func ∈ funcs, func.size < 2 ^ 32) → ∃ items',
        FramesInv target (funcs.foldl (EhState.emitFunc target) st)
        (expected ++ entriesFrom st.curPersonalityFuncAddr funcs) items'
  | [], st, expected, items, h, _, _ => ⟨items, by rwa [entriesFrom, List.append_nil]⟩
  | func :: funcs, st, expected, items, h, hlt, hsize => by
    obtain ⟨h8, hcur', hcie, -⟩ := emitFunc_length target func h.aligned
    have hlt' : (st.emitFunc target func).data.length < 2 ^ 32 := (length_le_foldl funcs h8).trans_lt hlt
    have hrest := fun func' hf => hsize func' (List.mem_cons_of_mem func hf)
    rw [entriesFrom]
    by_cases hcur : st.curPersonalityFuncAddr = func.personality
    · obtain ⟨items₁, h₁⟩ := h.emitSame hcur hlt' (hsize func List.mem_cons_self)
      obtain ⟨items₂, h₂⟩ := FramesInv.foldl h₁ hlt hrest
      rw [hcur', List.append_assoc] at h₂
      rw [if_neg (not_not.mpr hcur.symm)]
      exact ⟨items₂, h₂⟩
    · rw [if_pos (Ne.symm hcur)] at hcie
      obtain ⟨items₀, h₀⟩ := h.toRecordsInv.initCie (hcie.trans_lt hlt')
      rw [emitFunc_other hcur] at hlt'
      obtain ⟨items₁, h₁⟩ := h₀.emitSame rfl hlt' (hsize func List.mem_cons_self)
      rw [← emitFunc_other hcur] at h₁
      obtain ⟨items₂, h₂⟩ := FramesInv.foldl h₁ hlt hrest
      rw [hcur', List.append_assoc, List.append_assoc] at h₂
      rw [if_pos (Ne.symm hcur)]
      exact ⟨items₂, h₂⟩

end

/-- **The section is well formed**: the records for the functions, and no others, can be walked over up to its
end, and up to a terminator that is put there. -/
theorem frames_ok (target : TargetInfo) {funcs : List EhFunc}
    (hlt : (ehRun target funcs).data.length < 2 ^ 31)
    (hsize : ∀ func ∈ funcs, func.size < 2 ^ 31) : FramesOk target (ehRun target funcs) (entries funcs) := by
  have hempty : RecordsInv target ⟨[], [], 0, 0, 0⟩ [] [] := ⟨rfl, dvd_zero _, trivial, rfl, rfl, nofun⟩
  have h8 : 8 ∣ (⟨[], [], 0, 0, 0⟩ : EhState).data.length := dvd_zero _
  obtain ⟨n, hdata, hn, -, -, hcur⟩ := @ehInitCie_spec target ⟨[], [], 0, 0, 0⟩ 0 h8
  have hinit : 8 ∣ (EhState.ehInitCie target ⟨[], [], 0, 0, 0⟩ 0).data.length := by
    rw [hdata, List.length_append, Rec.length_bytes]
    exact Dvd.dvd.add h8 hn
  have hlt' : (ehRun target funcs).data.length < 2 ^ 32 := by omega
  obtain ⟨items₀, h₀⟩ := @RecordsInv.initCie _ _ _ _ 0 hempty ((length_le_foldl funcs hinit).trans_lt hlt')
  have hst : { EhState.ehInitCie target ⟨[], [], 0, 0, 0⟩ 0 with curPersonalityFuncAddr := 0 } =
      EhState.ehInitCie target ⟨[], [], 0, 0, 0⟩ 0 := congrArg (fun c =>
        { EhState.ehInitCie target ⟨[], [], 0, 0, 0⟩ 0 with curPersonalityFuncAddr := c }) hcur.symm
  rw [hst] at h₀
  obtain ⟨items, h⟩ := h₀.foldl hlt' fun func hf => (hsize func hf).trans (by decide)
  rw [hcur] at h
  refine ⟨items, ?_, ?_, h.entries, h.relocs, h.ok⟩
  · have hwalk := records_placed false h.placed
    rw [← h.data, tail, if_neg Bool.false_ne_true, List.append_nil] at hwalk
    exact hwalk
  · have hwalk := records_placed true h.placed
    rw [← h.data] at hwalk
    exact hwalk

/-- Two functions with a personality, and one without. -/
theorem frames_ok_three : FramesOk targetInfoX64
    (ehRun targetInfoX64 [⟨5, [0x41, 0x0e, 0x10], 1, 0, 16, 9, 0⟩, ⟨5, [], 1, 16, 32, 9, 40⟩,
      ⟨0, [], 1, 48, 16, 0, 0⟩])
    (entries [⟨5, [0x41, 0x0e, 0x10], 1, 0, 16, 9, 0⟩, ⟨5, [], 1, 16, 32, 9, 40⟩,
      ⟨0, [], 1, 48, 16, 0, 0⟩]) :=
  frames_ok targetInfoX64 (by decide +kernel) (by decide)

/-- Behind the records of a function there is no terminator. -/
theorem frames_no_terminator : ¬ ∃ recs, records (ehRun targetInfoX64 [⟨0, [], 1, 0, 16, 0, 0⟩]).data =
    some (recs, true) := by
  rintro ⟨recs, h⟩
  have hdone : (records (ehRun targetInfoX64 [⟨0, [], 1, 0, 16, 0, 0⟩]).data).map Prod.snd = some false := by
    decide +kernel
  rw [h] at hdone
  cases hdone

end Tpde.Assembler
