import Tpde.Assembler.EhFrame
import Tpde.Assembler.ExceptActions
import Tpde.Library.Elf

/-!
# The ELF assembler

The state of `AssemblerElf` and the functions that change it: sections, symbols,
relocations, exception frames and exception tables. Where the source asserts, or is
handed a reference that is not valid, a step has no result. The writer of `.eh_frame` is
the section's data; it is flushed by `finalize`.
-/

namespace Tpde.Assembler

open Bytes Elf

/-! ### Names of sections -/

/-- The bytes of a literal. -/
def ascii (s : String) : List UInt8 := s.toUTF8.toList

/-- The names in `SECTION_NAMES`, behind the null section. -/
def sectionNames : List (List UInt8) := [".note.GNU-stack", ".symtab", ".strtab", ".shstrtab"].map ascii

/-- The names in `SHSTRTAB`, behind the null section. -/
def shstrtabNames : List (List UInt8) :=
  [".note.GNU-stack", ".rela.eh_frame", ".symtab", ".strtab", ".shstrtab", ".bss", ".tbss",
    ".rela.rodata", ".rela.text",
    ".rela.data.rel.ro", ".rela.data", ".rela.tdata", ".rela.gcc_except_table", ".rela.init_array",
      ".rela.fini_array",
    ".group", ".symtab_shndx"].map ascii

/-- `SHSTRTAB`, with the zero byte at the end of the literal. -/
def shstrtab : List UInt8 := 0 :: (shstrtabNames.flatMap fun name => name ++ [0]) ++ [0]

/-- `sec_idx`. -/
def secIdx (name : String) : ℕ := sectionNames.idxOf (ascii name) + 1

/-- The loop of `sec_off`. -/
def secOffFrom (name : List UInt8) : ℕ → List (List UInt8) → ℕ
  | off, [] => off
  | off, secName :: names =>
    if name.isSuffixOf secName then off + secName.length - name.length
      else secOffFrom name (off + secName.length + 1) names

/-- `sec_off`. -/
def secOff (name : String) : ℕ := secOffFrom (ascii name) 1 shstrtabNames

/-- `predef_sec_count`. -/
def predefSecCount : ℕ := sectionNames.length + 1

/-! ### The state -/

/-- `DataSection`. -/
structure DataSection where
  data : List UInt8 := []
  vsize : ℕ := 0
  type : ℕ
  flags : ℕ
  name : ℕ
  align : ℕ := 1
  sym : ℕ := 0
  relocs : List Relocation := []
  isVirtual : Bool
  hasRelocs : Bool := false
  deriving DecidableEq

/-- `DataSection::size`. -/
def DataSection.size (sec : DataSection) : ℕ := if sec.isVirtual then sec.vsize else sec.data.length

/-- The references to sections that are made on demand; 0 is invalid. -/
structure SecRefs where
  text : ℕ := 0
  rodata : ℕ := 0
  relro : ℕ := 0
  data : ℕ := 0
  bss : ℕ := 0
  tdata : ℕ := 0
  tbss : ℕ := 0
  ehFrame : ℕ := 0
  exceptTable : ℕ := 0
  deriving DecidableEq

/-- The state of `AssemblerElf`, without the temporary storage for exceptions. A section that is reserved
for relocations is none. -/
structure ElfState where
  sections : List (Option DataSection)
  globalSymbols : List Sym
  localSymbols : List Sym
  globalShndx : List ℕ
  localShndx : List ℕ
  strtab : List UInt8
  shstrtabExtra : List UInt8
  refs : SecRefs
  ehCurCieOff : ℕ
  ehFirstFdeOff : ℕ
  curPersonalityFuncAddr : ℕ
  deriving DecidableEq

/-- The whole state. -/
structure AssemblerElf where
  elf : ElfState
  except : ExceptState
  deriving DecidableEq

/-- `SymBinding`. -/
inductive SymBinding where
  | localSym
  | weakSym
  | globalSym
  deriving DecidableEq

/-- The binding in the symbol table. -/
def SymBinding.stb : SymBinding → ℕ
  | .localSym => stbLocal
  | .weakSym => stbWeak
  | .globalSym => stbGlobal

/-- The null symbol. -/
def nullSym : Sym := ⟨0, 0, 0, 0, 0, 0⟩

/-- `StringTable::add`, with the offset of the string. -/
def strtabAdd (strtab str : List UInt8) : List UInt8 × ℕ :=
  if str = [] then (strtab, 0) else (strtab ++ str ++ [0], strtab.length)

/-- `StringTable::add_prefix`. -/
def strtabAddPrefix (strtab pre str : List UInt8) : List UInt8 × ℕ :=
  (strtab ++ pre ++ str ++ [0], strtab.length)

/-- `align_up`. -/
def alignUp (val align : ℕ) : ℕ := (val + align - 1) / align * align

/-- `resize`, with zeroes. -/
def resize {α : Type} (zero : α) (xs : List α) (n : ℕ) : List α :=
  xs.take n ++ List.replicate (n - xs.length) zero

namespace ElfState

/-! ### Sections -/

/-- `get_section`. -/
def getSection (st : ElfState) (ref : ℕ) : Option DataSection := if ref = 0 then none
    else st.sections.getD ref none

/-- A change of a section. -/
def modifySection (st : ElfState) (ref : ℕ) (f : DataSection → DataSection) : ElfState :=
  match st.getSection ref with
  | some sec => { st with sections := st.sections.set ref (some (f sec)) }
  | none => st

/-- `sec_is_xindex`. -/
def secIsXindex (ref : ℕ) : Bool := shnLoreserve ≤ ref

/-- `sym_is_local` and `sym_idx`. -/
def symIsLocal (sym : ℕ) : Bool := sym < 2 ^ 31

def symIdx (sym : ℕ) : ℕ := sym % 2 ^ 31

/-- A table in which entry `i` is set, with room made for it. -/
def setShndx (shndx : List ℕ) (i ref : ℕ) : List ℕ :=
  (if shndx.length ≤ i then resize 0 shndx (i + 1) else shndx).set i ref

/-- `sym_def_xindex`. -/
def symDefXindex (st : ElfState) (sym ref : ℕ) : ElfState :=
  if symIsLocal sym then { st with localShndx := setShndx st.localShndx (symIdx sym) ref }
  else { st with globalShndx := setShndx st.globalShndx (symIdx sym) ref }

/-- The private `create_section`, with the reference. -/
def newSection (st : ElfState) (type flags name : ℕ) : ElfState × ℕ :=
  ({ st with
    sections :=
      st.sections ++ [some { type := type, flags := flags, name := name, isVirtual := type = shtNobits }] },
    st.sections.length)

/-- A section that is reserved for relocations. -/
def reserveRela (st : ElfState) : ElfState := { st with sections := st.sections ++ [none] }

/-- `create_section_symbol`, with the reference. -/
def createSectionSymbol (st : ElfState) (ref : ℕ) (name : List UInt8) : ElfState × ℕ :=
  let (strtab, strOff) := strtabAdd st.strtab name
  let sym := st.localSymbols.length
  let st := { st with
    strtab := strtab
    localSymbols := st.localSymbols ++
      [⟨strOff, symInfo stbLocal sttSection, 0, if secIsXindex ref then shnXindex else ref, 0, 0⟩] }
  (if secIsXindex ref then st.symDefXindex sym ref else st, sym)

/-- A new section with its symbol, and with one for its relocations. -/
def newSectionWith (st : ElfState) (type flags name align : ℕ) (symName : List UInt8)
    (withRela : Bool) : ElfState × ℕ :=
  let (st, ref) := st.newSection type flags name
  let st := if withRela then st.reserveRela else st
  let (st, sym) := st.createSectionSymbol ref symName
  (st.modifySection ref fun sec => { sec with align := align, sym := sym, hasRelocs := withRela }, ref)

/-- `get_or_create_section`, with the reference. The name of a section is behind that of its relocations. -/
def getOrCreateSection (st : ElfState) (ref relaName type flags align : ℕ) (withRela : Bool) : ElfState × ℕ :=
  if ref ≠ 0 then (st, ref)
  else
    let name := if withRela then relaName + 5 else relaName
    st.newSectionWith type flags name align (cstring shstrtab name) withRela

/-- `get_data_section`. -/
def getDataSection (st : ElfState) (rodata relro : Bool) : ElfState :=
  let flags := shfAlloc + if rodata && !relro then 0 else shfWrite
  if !rodata then
    let (st, ref) := st.getOrCreateSection st.refs.data (secOff ".rela.data") shtProgbits flags 1 true
    { st with refs := { st.refs with data := ref } }
  else if relro then
    let (st, ref) := st.getOrCreateSection st.refs.relro (secOff ".rela.data.rel.ro") shtProgbits flags 1 true
    { st with refs := { st.refs with relro := ref } }
  else
    let (st, ref) := st.getOrCreateSection st.refs.rodata (secOff ".rela.rodata") shtProgbits flags 1 true
    { st with refs := { st.refs with rodata := ref } }

/-- `get_bss_section`. -/
def getBssSection (st : ElfState) : ElfState :=
  let (st, ref) := st.getOrCreateSection st.refs.bss (secOff ".bss") shtNobits (shfAlloc + shfWrite) 1 false
  { st with refs := { st.refs with bss := ref } }

/-- `get_tdata_section`. -/
def getTdataSection (st : ElfState) : ElfState :=
  let (st, ref) :=
    st.getOrCreateSection st.refs.tdata (secOff ".rela.tdata") shtProgbits
      (shfAlloc + shfWrite + shfTls) 1 true
  { st with refs := { st.refs with tdata := ref } }

/-- `get_tbss_section`. -/
def getTbssSection (st : ElfState) : ElfState :=
  let (st, ref) :=
    st.getOrCreateSection st.refs.tbss (secOff ".tbss") shtNobits (shfAlloc + shfWrite + shfTls) 1 false
  { st with refs := { st.refs with tbss := ref } }

/-- A number that is appended to a section. -/
def writeU32 (st : ElfState) (ref v : ℕ) : ElfState :=
  st.modifySection ref fun sec => { sec with data := sec.data ++ ofNat 4 v }

/-- `create_section`, with the reference. An invalid group is 0. -/
def createSection (st : ElfState) (name : List UInt8) (type flags : ℕ) (withRela : Bool) (group : ℕ) :
    Option (ElfState × ℕ) :=
  if type = shtGroup ∨ 0 ∈ name ∨ flags / shfGroup % 2 = 1 then none
  else if group ≠ 0 ∧ (st.getSection group).map DataSection.type ≠ some shtGroup then none
  else
    let (extra, off) := strtabAddPrefix st.shstrtabExtra (if withRela then ascii ".rela" else []) name
    let relaName := shstrtab.length + off
    let secName := if withRela then relaName + 5 else relaName
    let groupFlag := if group ≠ 0 then shfGroup else 0
    let (st, ref) :=
      { st with shstrtabExtra := extra }.newSectionWith type (flags + groupFlag) secName 1 name withRela
    some (if group = 0 then st else if withRela then (st.writeU32 group ref).writeU32 group (ref + 1)
      else st.writeU32 group ref,
      ref)

/-- `create_structor_section`. -/
def createStructorSection (st : ElfState) (init : Bool) (group : ℕ) : Option (ElfState × ℕ) :=
  (st.createSection (ascii (if init then ".init_array" else ".fini_array")) (if init then shtInitArray
    else shtFiniArray)
    (shfAlloc + shfWrite) true group).map fun x =>
      (x.1.modifySection x.2 fun sec => { sec with align := 8 }, x.2)

/-- `create_group_section`. -/
def createGroupSection (st : ElfState) (signatureSym : ℕ) (isComdat : Bool) : ElfState × ℕ :=
  let (st, ref) := st.newSection shtGroup 0 (secOff ".group")
  let st := st.modifySection ref fun sec => { sec with align := 4, sym := signatureSym }
  (st.writeU32 ref (if isComdat then grpComdat else 0), ref)

/-! ### Symbols -/

/-- `sym_ptr`. -/
def getSym (st : ElfState) (sym : ℕ) : Option Sym :=
  if sym = 0 then none else if symIsLocal sym then st.localSymbols[symIdx sym]?
    else st.globalSymbols[symIdx sym]?

/-- A symbol is set. -/
def setSym (st : ElfState) (sym : ℕ) (s : Sym) : ElfState :=
  if symIsLocal sym then { st with localSymbols := st.localSymbols.set (symIdx sym) s }
  else { st with globalSymbols := st.globalSymbols.set (symIdx sym) s }

/-- `sym_add`, with the reference. -/
def symAdd (st : ElfState) (name : List UInt8) (binding : SymBinding) (type : ℕ) : Option (ElfState × ℕ) :=
  let (strtab, strOff) := strtabAdd st.strtab name
  let sym : Sym := ⟨strOff, symInfo binding.stb type, 0, shnUndef, 0, 0⟩
  if binding = .localSym then
    if st.localSymbols.length + 1 < 2 ^ 31 then
      some ({ st with strtab := strtab, localSymbols := st.localSymbols ++ [sym] }, st.localSymbols.length)
    else none
  else if st.globalSymbols.length + 1 < 2 ^ 31 then
    some ({ st with
      strtab := strtab, globalSymbols := st.globalSymbols ++ [sym] }, 2 ^ 31 + st.globalSymbols.length)
  else none

/-- `sym_def`. -/
def symDef (st : ElfState) (sym ref pos size : ℕ) : Option ElfState := do
  let s ← st.getSym sym
  let _ ← st.getSection ref
  if s.shndx ≠ shnUndef then none
  else if !secIsXindex ref then some (st.setSym sym { s with value := pos, size := size, shndx := ref })
  else some ((st.setSym sym { s with value := pos, size := size, shndx := shnXindex }).symDefXindex sym ref)

/-- `sym_section`. -/
def symSection (st : ElfState) (sym : ℕ) : Option ℕ := do
  let s ← st.getSym sym
  if s.shndx < shnLoreserve ∧ s.shndx ≠ shnUndef then some s.shndx
  else if s.shndx = shnXindex then (if symIsLocal sym then st.localShndx else st.globalShndx)[symIdx sym]?
  else none

/-- `sym_copy`. -/
def symCopy (st : ElfState) (dst src : ℕ) : Option ElfState := do
  let d ← st.getSym dst
  let s ← st.getSym src
  let st' := st.setSym dst { d with shndx := s.shndx, size := s.size, value := s.value }
  if s.shndx = shnXindex then (st.symSection src).map (st'.symDefXindex dst) else some st'

/-- `sym_set_visibility`. -/
def symSetVisibility (st : ElfState) (sym visibility : ℕ) : Option ElfState :=
  (st.getSym sym).map fun s => st.setSym sym { s with other := visibility }

/-- `sym_def_predef_data`. -/
def symDefPredefData (st : ElfState) (ref sym : ℕ) (data : List UInt8) (align : ℕ) : Option ElfState := do
  let sec ← st.getSection ref
  let st := st.modifySection ref fun sec => { sec with align := max sec.align align }
  let pos := alignUp sec.size align
  let st ← st.symDef sym ref pos data.length
  if sec.isVirtual then none
  else some (st.modifySection ref fun sec => { sec with data := resize 0 sec.data pos ++ data })

/-- `sym_def_predef_zero`. -/
def symDefPredefZero (st : ElfState) (ref sym size align : ℕ) : Option ElfState := do
  let sec ← st.getSection ref
  let st := st.modifySection ref fun sec => { sec with align := max sec.align align }
  let pos := alignUp sec.size align
  let st ← st.symDef sym ref pos size
  some (st.modifySection ref fun sec =>
    if sec.isVirtual then { sec with vsize := pos + size }
      else { sec with data := resize 0 sec.data (pos + size) })

/-! ### Relocations and data -/

/-- `reloc_sec`; addends are 32 bit. -/
def relocSec (st : ElfState) (ref sym type offset : ℕ) (addend : ℤ) : Option ElfState := do
  let _ ← st.getSection ref
  let _ ← st.getSym sym
  if addend < -2 ^ 31 ∨ 2 ^ 31 ≤ addend then none
  else some (st.modifySection ref fun sec => { sec with
    relocs := sec.relocs ++ [⟨offset, sym, type, addend⟩] })

/-- The data of a section after it was written to. -/
def setData (st : ElfState) (ref : ℕ) (data : List UInt8) : Option ElfState := do
  let sec ← st.getSection ref
  if sec.isVirtual then none else some (st.modifySection ref fun sec => { sec with data := data })

/-! ### Exception frames -/

/-- The part of the state that the functions for exception frames work on. -/
def ehState (st : ElfState) (sec : DataSection) : EhState :=
  ⟨sec.data, sec.relocs, st.ehCurCieOff, st.ehFirstFdeOff, st.curPersonalityFuncAddr⟩

/-- A change of that part. -/
def modifyEh (st : ElfState) (f : EhState → EhState) : ElfState :=
  match st.getSection st.refs.ehFrame with
  | none => st
  | some sec =>
    let eh := f (st.ehState sec)
    { st.modifySection st.refs.ehFrame fun sec => { sec with data := eh.data, relocs := eh.relocs } with
      ehCurCieOff := eh.ehCurCieOff
      ehFirstFdeOff := eh.ehFirstFdeOff
      curPersonalityFuncAddr := eh.curPersonalityFuncAddr }

/-- `eh_begin_fde`. -/
def ehBeginFde (target : TargetInfo) (st : ElfState) (personality : ℕ) : ElfState :=
  st.modifyEh fun eh => (eh.ehBeginFde target personality).1

/-- `eh_write_inst`, with the bytes that are written. -/
def ehWrite (st : ElfState) (bs : List UInt8) : ElfState := st.modifyEh fun eh => eh.write bs

/-- `eh_end_fde`. -/
def ehEndFde (target : TargetInfo) (st : ElfState) (fdeStart func : ℕ) : Option ElfState := do
  let s ← st.getSym func
  let funcSec ← (st.symSection func).bind st.getSection
  let st :=
    if st.curPersonalityFuncAddr = 0 then st
    else
      let (st, ref) :=
        st.getOrCreateSection st.refs.exceptTable (secOff ".rela.gcc_except_table") shtProgbits shfAlloc
          8 true
      { st with refs := { st.refs with exceptTable := ref } }
  let table :=
    (st.getSection st.refs.exceptTable).getD { type := 0, flags := 0, name := 0, isVirtual := false }
  some (st.modifyEh fun eh => eh.ehEndFde target fdeStart funcSec.sym s.value s.size table.sym
    table.data.length)

/-- `except_encode_func`. -/
def exceptEncodeFunc (st : ElfState) (target : TargetInfo) (except : ExceptState) (func : ℕ)
    (labelOffsets : ℕ → ℕ) :
    Option ElfState := do
  if st.curPersonalityFuncAddr = 0 then
    if except.callSiteTable = [] ∧ except.typeInfoTable = [] ∧ except.specTable = [] ∧
      except.actionTable.length = 2 then some st
    else none
  else
    let s ← st.getSym func
    let sec ← st.getSection st.refs.exceptTable
    if ∃ info ∈ except.callSiteTable, s.size ≤ labelOffsets info.landingPadLabel - s.value then none
    else
      let area := except.exceptEncodeFunc s.value (s.value + s.size) labelOffsets
      let relocs := (except.exceptRelocs s.value (s.value + s.size) labelOffsets sec.data.length).map fun x =>
        (⟨x.2, x.1, target.relocPc32, 0⟩ : Relocation)
      some (st.modifySection st.refs.exceptTable fun sec =>
        { sec with data := sec.data ++ area, relocs := sec.relocs ++ relocs })

/-! ### Construction and reset -/

/-- `init_sections`. -/
def initSections (st : ElfState) : ElfState :=
  let st := (List.range predefSecCount).foldl (fun st _ => (st.newSection shtNull 0 0).1) st
  let (st, ref) :=
    st.getOrCreateSection st.refs.text (secOff ".rela.text") shtProgbits (shfAlloc + shfExecinstr) 16 true
  let st := { st with refs := { st.refs with text := ref } }
  let (st, ref) := st.getOrCreateSection st.refs.ehFrame (secOff ".rela.eh_frame") shtProgbits shfAlloc 8 true
  { st with refs := { st.refs with ehFrame := ref } }

/-- The constructor. -/
def init (target : TargetInfo) : ElfState :=
  (initSections ⟨[], [], resize nullSym [] 1, [], [], [0], [0], {}, 0, 0, 0⟩).modifyEh fun eh =>
    eh.ehInitCie target 0

/-- `reset`. -/
def reset (target : TargetInfo) (st : ElfState) : ElfState :=
  let st := { st with
    sections := []
    globalSymbols := []
    localSymbols := resize nullSym st.localSymbols 1
    strtab := [0]
    shstrtabExtra := [0]
    refs := {}
    curPersonalityFuncAddr := 0 }
  st.initSections.modifyEh fun eh => eh.ehInitCie target 0

end ElfState

/-! ### Sequences of calls -/

/-- A call of a function for sections, symbols, relocations or exception frames. -/
inductive ElfOp where
  | getDataSection (rodata relro : Bool)
  | getBssSection
  | getTdataSection
  | getTbssSection
  | createSection (name : List UInt8) (type flags : ℕ) (withRela : Bool) (group : ℕ)
  | createStructorSection (init : Bool) (group : ℕ)
  | createGroupSection (signatureSym : ℕ) (isComdat : Bool)
  | symAdd (name : List UInt8) (binding : SymBinding) (type : ℕ)
  | symDef (sym ref pos size : ℕ)
  | symCopy (dst src : ℕ)
  | symSetVisibility (sym visibility : ℕ)
  | symDefPredefData (ref sym : ℕ) (data : List UInt8) (align : ℕ)
  | symDefPredefZero (ref sym size align : ℕ)
  | relocSec (ref sym type offset : ℕ) (addend : ℤ)
  | setData (ref : ℕ) (data : List UInt8)
  | ehBeginFde (personality : ℕ)
  | ehWrite (bs : List UInt8)
  | ehEndFde (fdeStart func : ℕ)
  deriving DecidableEq

/-- What a call does. -/
def ElfState.step (target : TargetInfo) (st : ElfState) : ElfOp → Option ElfState
  | .getDataSection rodata relro => some (st.getDataSection rodata relro)
  | .getBssSection => some st.getBssSection
  | .getTdataSection => some st.getTdataSection
  | .getTbssSection => some st.getTbssSection
  | .createSection name type flags withRela group =>
    (st.createSection name type flags withRela group).map Prod.fst
  | .createStructorSection init group => (st.createStructorSection init group).map Prod.fst
  | .createGroupSection signatureSym isComdat => some (st.createGroupSection signatureSym isComdat).1
  | .symAdd name binding type => (st.symAdd name binding type).map Prod.fst
  | .symDef sym ref pos size => st.symDef sym ref pos size
  | .symCopy dst src => st.symCopy dst src
  | .symSetVisibility sym visibility => st.symSetVisibility sym visibility
  | .symDefPredefData ref sym data align => st.symDefPredefData ref sym data align
  | .symDefPredefZero ref sym size align => st.symDefPredefZero ref sym size align
  | .relocSec ref sym type offset addend => st.relocSec ref sym type offset addend
  | .setData ref data => st.setData ref data
  | .ehBeginFde personality => some (st.ehBeginFde target personality)
  | .ehWrite bs => some (st.ehWrite bs)
  | .ehEndFde fdeStart func => st.ehEndFde target fdeStart func

/-- A call of any function. -/
inductive AsmOp where
  | elf (op : ElfOp)
  | exceptBeginFunc
  | except (op : ExceptOp)
  | exceptEncodeFunc (func : ℕ) (labelOffsets : ℕ → ℕ)

namespace AssemblerElf

/-- What a call does. A type must be known when its index is asked for. -/
def step (target : TargetInfo) (st : AssemblerElf) : AsmOp → Option AssemblerElf
  | .elf op => (st.elf.step target op).map fun elf => { st with elf := elf }
  | .exceptBeginFunc => some { st with except := ExceptState.exceptBeginFunc }
  | .except (.typeIdxForSym sym) => (st.except.exceptTypeIdxForSym sym).map fun _ => st
  | .except op => some { st with except := st.except.step op }
  | .exceptEncodeFunc func labelOffsets =>
    (st.elf.exceptEncodeFunc target st.except func labelOffsets).map fun elf => { st with elf := elf }

/-- What a sequence of calls does. -/
def run (target : TargetInfo) : AssemblerElf → List AsmOp → Option AssemblerElf
  | st, [] => some st
  | st, op :: ops => (st.step target op).bind fun st => run target st ops

/-- A new assembler. -/
def new (target : TargetInfo) : AssemblerElf := ⟨ElfState.init target, ⟨[], [], [], []⟩⟩

/-- `reset`, which leaves the temporary storage for exceptions. -/
def reset (target : TargetInfo) (st : AssemblerElf) : AssemblerElf := { st with elf := st.elf.reset target }

end AssemblerElf

end Tpde.Assembler
