import Tpde.Assembler.AssemblerElf

/-!
# Writing an object file

`build_object_file` of `AssemblerElf`: the headers of all sections are in front, and the
contents follow in the order of the sections, each one padded to 8 bytes. Local symbols
come before global ones, so references to global symbols are renumbered.
-/

namespace Tpde.Assembler

open Bytes Elf ElfState

/-- The rest of `TargetInfoElf`. -/
structure TargetInfoElf extends TargetInfo where
  elfOsabi : UInt8
  elfMachine : ℕ

/-- A section header with the bytes that are written for it. -/
structure Block where
  hdr : Shdr
  bytes : List UInt8
  deriving DecidableEq

/-- The padding behind `size` bytes. -/
def pad8 (size : ℕ) : List UInt8 := List.replicate (alignUp size 8 - size) 0

namespace ElfState

section
variable (st : ElfState) (off : ℕ)

/-- `.note.GNU-stack`, which is empty. -/
def noteBlock : Block :=
  ⟨{ name := secOff ".note.GNU-stack", type := shtProgbits, offset := off, addralign := 1 }, []⟩

/-- `.symtab`: global symbols come after the local ones. -/
def symtabBlock : Block where
  hdr := {
    name := secOff ".symtab"
    type := shtSymtab
    offset := off
    size := 24 * (st.localSymbols.length + st.globalSymbols.length)
    link := secIdx ".strtab"
    info := st.localSymbols.length
    addralign := 8
    entsize := 24 }
  bytes := (st.localSymbols ++ st.globalSymbols).flatMap fun sym => pack sym.fields

/-- `.strtab`. -/
def strtabBlock : Block where
  hdr := {
    name := secOff ".strtab"
    type := shtStrtab
    offset := off
    size := alignUp st.strtab.length 8
    addralign := 1 }
  bytes := st.strtab ++ pad8 st.strtab.length

/-- `.shstrtab`. -/
def shstrtabBlock : Block where
  hdr := {
    name := secOff ".shstrtab"
    type := shtStrtab
    offset := off
    size := shstrtab.length + st.shstrtabExtra.length
    addralign := 1 }
  bytes := shstrtab ++ st.shstrtabExtra ++ pad8 (shstrtab.length + st.shstrtabExtra.length)

/-- A section. That of a group names its symbol. -/
def sectionBlock (sec : DataSection) : Block where
  hdr := {
    name := sec.name
    type := sec.type
    flags := sec.flags
    offset := off
    size := sec.size
    link := if sec.type = shtGroup then secIdx ".symtab" else 0
    info :=
      if sec.type = shtGroup then
        if symIsLocal sec.sym then symIdx sec.sym else st.localSymbols.length + symIdx sec.sym
      else 0
    addralign := sec.align
    entsize := if sec.type = shtGroup then 4 else 0 }
  bytes := sec.data ++ pad8 sec.data.length

/-- A relocation, with the symbol's reference converted. -/
def relaOf (reloc : Relocation) : Rela where
  offset := reloc.offset
  info :=
    let symbolFix := if symIsLocal reloc.symbol then 0 else (2 ^ 31 + st.localSymbols.length) % 2 ^ 32
    (reloc.symbol + symbolFix) % 2 ^ 32 * 2 ^ 32 + reloc.type
  addend := unsigned64 reloc.addend

/-- The relocations of section `i`. -/
def relaBlock (sec : DataSection) (i : ℕ) : Block where
  hdr := {
    name := sec.name - 5
    type := shtRela
    flags := shfInfoLink + (if sec.flags / shfGroup % 2 = 1 then shfGroup else 0)
    offset := off
    size := 24 * sec.relocs.length
    link := secIdx ".symtab"
    info := i
    addralign := 8
    entsize := 24 }
  bytes := sec.relocs.flatMap fun reloc => pack (st.relaOf reloc).fields

/-- `.symtab_shndx`. What is missing in the tables is zero. -/
def shndxBlock : Block where
  hdr := {
    name := secOff ".symtab_shndx"
    type := shtSymtabShndx
    offset := off
    size := 4 * (st.localSymbols.length + st.globalSymbols.length)
    link := secIdx ".symtab"
    addralign := 4
    entsize := 4 }
  bytes :=
    (st.localShndx.flatMap (ofNat 4)) ++
      List.replicate (4 * ((st.localSymbols.length + 2 ^ 32 - st.localShndx.length) % 2 ^ 32)) 0 ++
      (st.globalShndx.flatMap (ofNat 4)) ++
      List.replicate (4 * ((st.globalSymbols.length + 2 ^ 32 - st.globalShndx.length) % 2 ^ 32)) 0

end

/-- The loop over the sections, from index `i` and offset `off` on. The section behind one that has
relocations is reserved for them. -/
def sectionBlocks (st : ElfState) : ℕ → ℕ → List (Option DataSection) → Option (List Block)
  | _, _, [] => some []
  | _, _, none :: _ => none
  | i, off, some sec :: rest =>
    let block := st.sectionBlock off sec
    let off := off + block.bytes.length
    if sec.hasRelocs then
      match rest with
      | none :: rest =>
        let rela := st.relaBlock off sec i
        (st.sectionBlocks (i + 2) (off + rela.bytes.length) rest).map fun blocks => block :: rela :: blocks
      | _ => none
    else (st.sectionBlocks (i + 1) off rest).map (block :: ·)

/-- The sections of which all assemblers have one, from offset `off` on. -/
def predefBlocks (st : ElfState) (off : ℕ) : List Block :=
  let note := noteBlock off
  let off := off + note.bytes.length
  let symtab := st.symtabBlock off
  let off := off + symtab.bytes.length
  let strtab := st.strtabBlock off
  let off := off + strtab.bytes.length
  [note, symtab, strtab, st.shstrtabBlock off]

/-- The length of the blocks' bytes. -/
def blocksLength (blocks : List Block) : ℕ := (blocks.map fun block => block.bytes.length).sum

/-- The number of section headers. -/
def secCount (st : ElfState) : ℕ :=
  if shnLoreserve ≤ st.sections.length then st.sections.length + 1 else st.sections.length

/-- The blocks of all sections but the null section. -/
def blocks (st : ElfState) : Option (List Block) :=
  let off := 64 + 64 * st.secCount
  let predef := st.predefBlocks off
  let off := off + blocksLength predef
  (st.sectionBlocks predefSecCount off (st.sections.drop predefSecCount)).bind fun secs =>
    if shnLoreserve ≤ st.sections.length then
      some (predef ++ secs ++ [st.shndxBlock (off + blocksLength secs)])
    else if st.localShndx = [] ∧ st.globalShndx = [] then some (predef ++ secs)
    else none

/-- The header of the null section, which has the number of sections if the file's header cannot have it. -/
def nullHdr (st : ElfState) : Shdr := { size := if st.secCount < shnLoreserve then 0 else st.secCount }

/-- The file's header. -/
def ehdr (target : TargetInfoElf) (st : ElfState) : Ehdr where
  type := 1
  machine := target.elfMachine
  version := 1
  shoff := 64
  ehsize := 64
  shentsize := 64
  shnum := if st.secCount < shnLoreserve then st.secCount else 0
  shstrndx := secIdx ".shstrtab"

/-- The identification in front of the file's header. -/
def ident (target : TargetInfoElf) : List UInt8 := identMagic ++ [target.elfOsabi, 0] ++ List.replicate 7 0

/-- `build_object_file`. -/
def buildObjectFile (target : TargetInfoElf) (st : ElfState) : Option (List UInt8) :=
  st.blocks.map fun blocks =>
    ident target ++ pack (st.ehdr target).fields ++
      ((st.nullHdr :: blocks.map Block.hdr).flatMap fun hdr => pack hdr.fields) ++ blocks.flatMap Block.bytes

end ElfState

/-- `TARGET_INFO` of the two assemblers. -/
def targetInfoElfA64 : TargetInfoElf := { targetInfoA64 with elfOsabi := 0, elfMachine := 183 }

def targetInfoElfX64 : TargetInfoElf := { targetInfoX64 with elfOsabi := 0, elfMachine := 62 }

end Tpde.Assembler
