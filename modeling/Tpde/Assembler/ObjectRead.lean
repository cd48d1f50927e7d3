import Mathlib.Data.List.ReduceOption
import Tpde.Assembler.ObjectLayout

/-!
# Reading an object file back

The file that `build_object_file` writes, read by its format, has the sections, the
symbols and the relocations of the assembler (`buildObjectFile_read`). All of them are at
offsets that are multiples of 8, also where the alignment of a section is larger.
-/

namespace Tpde.Assembler

open Bytes Elf ElfState

namespace ElfState

/-! ### What is read -/

/-- The number of a symbol in the file. -/
def elfSym (st : ElfState) (sym : ℕ) : ℕ := if symIsLocal sym then symIdx sym
    else st.localSymbols.length + symIdx sym

/-- The numbers of a state fit the types that they have in the source. -/
structure FieldsFit (st : ElfState) : Prop where
  localCount : st.localSymbols.length ≤ 2 ^ 31
  sectionCount : st.sections.length + 1 < 2 ^ 32
  symbols : ∀ s ∈ st.localSymbols ++ st.globalSymbols, Fits s.fields
  shndx : ∀ ref ∈ st.localShndx ++ st.globalShndx, ref < 2 ^ 32
  sections : ∀ sec, some sec ∈ st.sections →
    sec.name < 2 ^ 32 ∧ sec.type < 2 ^ 32 ∧ sec.flags < 2 ^ 32 ∧ sec.align < 2 ^ 32 ∧ sec.vsize < 2 ^ 64
  relocs : ∀ sec, some sec ∈ st.sections → ∀ reloc ∈ sec.relocs,
    reloc.offset < 2 ^ 32 ∧ reloc.symbol < 2 ^ 32 ∧ reloc.type < 2 ^ 32 ∧ -2 ^ 31 ≤ reloc.addend ∧
      reloc.addend < 2 ^ 31

theorem forall_mem_reduceOption {α : Type} {xs : List (Option α)} {P : α → Prop} :
    (∀ x ∈ xs.reduceOption, P x) ↔ ∀ x, some x ∈ xs → P x := by
  simp only [List.reduceOption_mem_iff]

instance (st : ElfState) : Decidable st.FieldsFit :=
  decidable_of_iff (st.localSymbols.length ≤ 2 ^ 31 ∧ st.sections.length + 1 < 2 ^ 32 ∧
      (∀ s ∈ st.localSymbols ++ st.globalSymbols, Fits s.fields) ∧
        (∀ ref ∈ st.localShndx ++ st.globalShndx, ref < 2 ^ 32) ∧
      (∀ sec ∈ st.sections.reduceOption,
        sec.name < 2 ^ 32 ∧ sec.type < 2 ^ 32 ∧ sec.flags < 2 ^ 32 ∧ sec.align < 2 ^ 32 ∧
          sec.vsize < 2 ^ 64) ∧
      ∀ sec ∈ st.sections.reduceOption, ∀ reloc ∈ sec.relocs,
        reloc.offset < 2 ^ 32 ∧ reloc.symbol < 2 ^ 32 ∧ reloc.type < 2 ^ 32 ∧ -2 ^ 31 ≤ reloc.addend ∧
          reloc.addend < 2 ^ 31)
    ⟨fun h => ⟨h.1, h.2.1, h.2.2.1, h.2.2.2.1, forall_mem_reduceOption.mp h.2.2.2.2.1,
      forall_mem_reduceOption.mp h.2.2.2.2.2⟩,
      fun h => ⟨h.localCount, h.sectionCount, h.symbols, h.shndx, forall_mem_reduceOption.mpr h.sections,
        forall_mem_reduceOption.mpr h.relocs⟩⟩

/-- The section with index `i` is read back: its contents, unless it is virtual, and the symbol of a group. -/
structure SectionRead (st : ElfState) (o : Object) (i : ℕ) (sec : DataSection) : Prop where
  name : o.sectionName (o.header i) = cstring (shstrtab ++ st.shstrtabExtra) sec.name
  type : (o.header i).type = sec.type
  flags : (o.header i).flags = sec.flags
  align : (o.header i).addralign = sec.align
  size : (o.header i).size = sec.size
  content (h : sec.isVirtual = false) : o.content (o.header i) = sec.data
  group (h : sec.type = shtGroup) : (o.header i).link = secIdx ".symtab" ∧
    (o.header i).info = st.elfSym sec.sym

/-- The relocations of the section with index `i` are read back from the section behind it. -/
structure RelasRead (st : ElfState) (o : Object) (i : ℕ) (sec : DataSection) : Prop where
  name : o.sectionName (o.header (i + 1)) = cstring (shstrtab ++ st.shstrtabExtra) (sec.name - 5)
  type : (o.header (i + 1)).type = shtRela
  link : (o.header (i + 1)).link = secIdx ".symtab"
  info : (o.header (i + 1)).info = i
  relas :
    (o.relas (o.header (i + 1))).map (fun rela => (rela.offset, rela.sym, rela.type, signed64 rela.addend)) =
    sec.relocs.map fun reloc => (reloc.offset, st.elfSym reloc.symbol, reloc.type, reloc.addend)

/-- The symbols are read back. -/
structure SymbolsRead (st : ElfState) (o : Object) : Prop where
  type : (o.header (secIdx ".symtab")).type = shtSymtab
  info : (o.header (secIdx ".symtab")).info = st.localSymbols.length
  symbols : o.symbols (o.header (secIdx ".symtab")) = st.localSymbols ++ st.globalSymbols
  binding {k : ℕ} {s : Sym} (h : (o.symbols (o.header (secIdx ".symtab")))[k]? = some s) :
    s.bind = stbLocal ↔ k < (o.header (secIdx ".symtab")).info
  name (s : Sym) : o.symbolName (o.header (secIdx ".symtab")) s = cstring st.strtab s.name
  symbol {sym : ℕ} {s : Sym} (h : st.getSym sym = some s) :
    (o.symbols (o.header (secIdx ".symtab")))[st.elfSym sym]? = some s
  symSection {sym : ℕ} {s : Sym} (h : st.getSym sym = some s) :
    (s.shndx = shnUndef ∧ o.symbolSection (secIdx ".symtab") (st.elfSym sym) = shnUndef) ∨
      ∃ ref, st.symSection sym = some ref ∧ o.symbolSection (secIdx ".symtab") (st.elfSym sym) = ref

/-- All parts lie within the file, behind the headers, at multiples of 8, and do not overlap. -/
structure PartsOk (o : Object) : Prop where
  within : ∀ hdr ∈ o.headers.tail, 64 + 64 * o.headers.length ≤ hdr.offset ∧
    hdr.offset + hdr.range.2 ≤ o.bytes.length
  aligned : ∀ hdr ∈ o.headers.tail, 8 ∣ hdr.offset
  disjoint : o.headers.tail.Pairwise fun hdr hdr' => hdr.offset + hdr.range.2 ≤ hdr'.offset

/-- A file is read back as the state it was built from. -/
structure RoundTrip (st : ElfState) (o : Object) : Prop where
  count : o.headers.length = st.secCount
  sections {i : ℕ} {sec : DataSection} (hi : predefSecCount ≤ i)
    (h : st.sections[i]? = some (some sec)) : SectionRead st o i sec
  relas {i : ℕ} {sec : DataSection} (h : st.sections[i]? = some (some sec))
    (hrelocs : sec.hasRelocs = true ∨ sec.relocs ≠ []) :
    RelasRead st o i sec
  symbols : SymbolsRead st o
  parts : PartsOk o

variable {st : ElfState}

/-! ### Headers -/

theorem fits_shdr {hdr : Shdr} (hname : hdr.name < 2 ^ 32) (htype : hdr.type < 2 ^ 32)
    (hflags : hdr.flags < 2 ^ 64)
    (haddr : hdr.addr = 0) (hoffset : hdr.offset < 2 ^ 64) (hsize : hdr.size < 2 ^ 64)
    (hlink : hdr.link < 2 ^ 32)
    (hinfo : hdr.info < 2 ^ 32) (halign : hdr.addralign < 2 ^ 64) (hentsize : hdr.entsize < 2 ^ 64) :
      Fits hdr.fields := by
  intro f hf
  simp only [Shdr.fields, List.mem_cons, List.not_mem_nil, or_false] at hf
  rcases hf with rfl | rfl | rfl | rfl | rfl | rfl | rfl | rfl | rfl | rfl
  · exact hname
  · exact htype
  · exact hflags
  · rw [haddr]
    decide
  · exact hoffset
  · exact hsize
  · exact hlink
  · exact hinfo
  · exact halign
  · exact hentsize

theorem symIdx_lt (sym : ℕ) : symIdx sym < 2 ^ 31 := Nat.mod_lt _ (by decide)

theorem fits_sectionBlock (hfit : st.FieldsFit) {sec : DataSection} (hsec : some sec ∈ st.sections)
    {off : ℕ} (hoff : off < 2 ^ 64)
    (hdata : sec.data.length < 2 ^ 64) : Fits (st.sectionBlock off sec).hdr.fields := by
  obtain ⟨hname, htype, hflags, halign, hvsize⟩ := hfit.sections sec hsec
  have hidx := symIdx_lt sec.sym
  have hlocals := hfit.localCount
  have hlink : secIdx ".symtab" < 2 ^ 32 := by decide +kernel
  refine fits_shdr hname htype ?_ rfl hoff ?_ ?_ ?_ ?_ ?_
  · show sec.flags < _
    omega
  · show (if sec.isVirtual then sec.vsize else sec.data.length) < _
    split
    · exact hvsize
    · exact hdata
  · show (if sec.type = shtGroup then secIdx ".symtab" else 0) < _
    split
    · exact hlink
    · decide
  · show (if sec.type = shtGroup then
      (if symIsLocal sec.sym then symIdx sec.sym else st.localSymbols.length + symIdx sec.sym) else 0) < _
    split
    · split <;> omega
    · decide
  · show sec.align < _
    omega
  · show (if sec.type = shtGroup then 4 else 0) < _
    split <;> decide

theorem fits_relaBlock (hfit : st.FieldsFit) {sec : DataSection} (hsec : some sec ∈ st.sections)
    {off i : ℕ} (hoff : off < 2 ^ 64)
    (hi : i < 2 ^ 32) (hlen : 24 * sec.relocs.length < 2 ^ 64) :
      Fits (st.relaBlock off sec i).hdr.fields := by
  obtain ⟨hname, -⟩ := hfit.sections sec hsec
  have hlink : secIdx ".symtab" < 2 ^ 32 := by decide +kernel
  refine fits_shdr ?_ (show 4 < 2 ^ 32 by decide) ?_ rfl hoff hlen hlink hi (show 8 < 2 ^ 64 by decide)
    (show 24 < 2 ^ 64 by decide)
  · show sec.name - 5 < _
    omega
  · show shfInfoLink + (if sec.flags / shfGroup % 2 = 1 then shfGroup else 0) < _
    split <;> decide

theorem fits_shndxBlock {off : ℕ} (hoff : off < 2 ^ 64)
    (hlen : 4 * (st.localSymbols.length + st.globalSymbols.length) < 2 ^ 64) :
    Fits (st.shndxBlock off).hdr.fields := by
  have hlink : secIdx ".symtab" < 2 ^ 32 := by decide +kernel
  have hname : secOff ".symtab_shndx" < 2 ^ 32 := by decide +kernel
  exact fits_shdr hname (show 18 < 2 ^ 32 by decide) (show 0 < 2 ^ 64 by decide) rfl hoff hlen hlink
    (show 0 < 2 ^ 32 by decide)
    (show 4 < 2 ^ 64 by decide) (show 4 < 2 ^ 64 by decide)

/-- The header of a part of the file fits, if that part does. -/
theorem fits_predefBlocks (hfit : st.FieldsFit) {off : ℕ} {block : Block}
    (hblock : block ∈ st.predefBlocks off)
    (hoff : block.hdr.offset < 2 ^ 64) (hsize : block.hdr.size < 2 ^ 64) : Fits block.hdr.fields := by
  have hlocals := hfit.localCount
  have hlink : secIdx ".strtab" < 2 ^ 32 := by decide +kernel
  have hnote : secOff ".note.GNU-stack" < 2 ^ 32 := by decide +kernel
  have hsymtab : secOff ".symtab" < 2 ^ 32 := by decide +kernel
  have hstrtab : secOff ".strtab" < 2 ^ 32 := by decide +kernel
  have hshstrtab : secOff ".shstrtab" < 2 ^ 32 := by decide +kernel
  have hinfo : st.localSymbols.length < 2 ^ 32 := by omega
  simp only [predefBlocks, List.mem_cons, List.not_mem_nil, or_false] at hblock
  have h0 : 0 < 2 ^ 64 := by decide
  have h0' : 0 < 2 ^ 32 := by decide
  have h1 : 1 < 2 ^ 64 := by decide
  rcases hblock with rfl | rfl | rfl | rfl
  · exact fits_shdr hnote (show 1 < 2 ^ 32 by decide) h0 rfl hoff hsize h0' h0' h1 h0
  · exact fits_shdr hsymtab (show 2 < 2 ^ 32 by decide) h0 rfl hoff hsize hlink hinfo
      (show 8 < 2 ^ 64 by decide)
      (show 24 < 2 ^ 64 by decide)
  · exact fits_shdr hstrtab (show 3 < 2 ^ 32 by decide) h0 rfl hoff hsize h0' h0' h1 h0
  · exact fits_shdr hshstrtab (show 3 < 2 ^ 32 by decide) h0 rfl hoff hsize h0' h0' h1 h0

/-! ### Parts of a file -/

/-- A file with the headers and the bytes of some blocks. -/
structure FileRead (st : ElfState) (secs blocks : List Block) (o : Object) : Prop where
  laid : FileLaid st secs blocks
  headers : o.headers = st.nullHdr :: blocks.map Block.hdr
  shstrndx : o.shstrndx = secIdx ".shstrtab"
  bytes : o.bytes.drop st.headersEnd = contentBytes (contents blocks)

theorem secIdx_symtab : secIdx ".symtab" = 2 := by decide +kernel

theorem secIdx_strtab : secIdx ".strtab" = 3 := by decide +kernel

theorem secIdx_shstrtab : secIdx ".shstrtab" = 4 := by decide +kernel

/-- Zeroes behind strings do not matter. -/
theorem cstring_zeros (bs : List UInt8) (n off : ℕ) :
    cstring (bs ++ List.replicate n 0) off = cstring bs off := by
  have hzeros (m : ℕ) : (List.replicate m (0 : UInt8)).takeWhile (fun b => b ≠ 0) = [] := by
    cases m <;> rfl
  have happend (xs : List UInt8) (m : ℕ) :
    (xs ++ List.replicate m 0).takeWhile (fun b => b ≠ 0) = xs.takeWhile fun b => b ≠ 0 := by
    induction xs with
    | nil => exact hzeros m
    | cons x xs ih =>
      rw [List.cons_append, List.takeWhile_cons, List.takeWhile_cons, ih]
  rw [cstring, cstring, List.drop_append, List.drop_replicate]
  exact happend _ _

namespace FileRead

variable {secs blocks : List Block} {o : Object} {k : ℕ} {block : Block}

theorem header (h : FileRead st secs blocks o) (hk : blocks[k]? = some block) :
    o.header (k + 1) = block.hdr := by
  rw [Object.header, h.headers, List.getD_cons_succ, List.getD_eq_getElem?_getD, List.getElem?_map, hk]
  rfl

theorem content (h : FileRead st secs blocks o) (hk : blocks[k]? = some block) :
    o.content block.hdr = block.bytes.take block.hdr.range.2 := by
  have hmem : (block.hdr, block.bytes) ∈ contents blocks :=
    List.mem_map.mpr ⟨block, List.mem_of_getElem? hk, rfl⟩
  exact h.laid.laidOut.content hmem (h.bytes.trans (List.append_nil _).symm)

/-- The blocks of tables are in front. -/
theorem predef (h : FileRead st secs blocks o) (hk : (st.predefBlocks st.headersEnd)[k]? = some block) :
    blocks[k]? = some block := by
  obtain ⟨off, heq⟩ := h.laid.eq
  rw [heq, List.append_assoc, List.getElem?_append_left (List.getElem?_eq_some_iff.mp hk).1, hk]

/-- The blocks of sections are behind those of four tables. -/
theorem secBlock (h : FileRead st secs blocks o) (hk : secs[k]? = some block) :
    blocks[k + 4]? = some block := by
  obtain ⟨off, heq⟩ := h.laid.eq
  have hlen : (st.predefBlocks st.headersEnd).length = 4 := rfl
  rw [heq, List.append_assoc, List.getElem?_append_right (by omega), hlen, Nat.add_sub_cancel,
    List.getElem?_append_left (List.getElem?_eq_some_iff.mp hk).1, hk]

/-- The names of sections. -/
theorem sectionName (h : FileRead st secs blocks o) (hdr : Shdr) :
    o.sectionName hdr = cstring (shstrtab ++ st.shstrtabExtra) hdr.name := by
  have hk : blocks[3]? = some (st.shstrtabBlock _) := h.predef rfl
  rw [Object.sectionName, h.shstrndx, secIdx_shstrtab, h.header hk, h.content hk]
  congr 1
  show (shstrtab ++ st.shstrtabExtra ++ pad8 _).take (shstrtab.length + st.shstrtabExtra.length) = _
  rw [List.take_left' List.length_append]

theorem symtab (h : FileRead st secs blocks o) : ∃ off,
    o.header (secIdx ".symtab") = (st.symtabBlock off).hdr ∧
    o.content (o.header (secIdx ".symtab")) = (st.symtabBlock off).bytes := by
  have hk : blocks[1]? = some (st.symtabBlock _) := h.predef rfl
  have hheader := h.header hk
  rw [secIdx_symtab, hheader, h.content hk]
  refine ⟨_, rfl, List.take_of_length_le ?_⟩
  exact (length_symtab st _).le

/-- The names of symbols. -/
theorem symbolName (h : FileRead st secs blocks o) (s : Sym) :
    o.symbolName (o.header (secIdx ".symtab")) s = cstring st.strtab s.name := by
  have hk : blocks[2]? = some (st.strtabBlock _) := h.predef rfl
  obtain ⟨off, hsymtab, -⟩ := h.symtab
  rw [Object.symbolName, hsymtab, show (st.symtabBlock off).hdr.link = secIdx ".strtab" from rfl,
    secIdx_strtab, h.header hk,
    h.content hk]
  have htake : (st.strtab ++ pad8 st.strtab.length).take (alignUp st.strtab.length 8) =
    st.strtab ++ pad8 st.strtab.length :=
    List.take_of_length_le (length_padded _).le
  show cstring ((st.strtab ++ pad8 st.strtab.length).take (alignUp st.strtab.length 8)) s.name = _
  rw [htake]
  exact cstring_zeros ..

/-- The symbols. -/
theorem symbols (h : FileRead st secs blocks o) (hfit : st.FieldsFit) :
    o.symbols (o.header (secIdx ".symtab")) = st.localSymbols ++ st.globalSymbols := by
  obtain ⟨off, hheader, hcontent⟩ := h.symtab
  have hlen (sym : Sym) (_ : sym ∈ st.localSymbols ++ st.globalSymbols) :
    (pack sym.fields).length = 24 := length_pack _
  have htable := readTable_flatMap hlen (fun sym hsym => readSym_pack (hfit.symbols sym hsym)) []
  have hsize : (o.header (secIdx ".symtab")).size / 24 = (st.localSymbols ++ st.globalSymbols).length := by
    rw [hheader, List.length_append]
    exact Nat.mul_div_cancel_left _ (by decide)
  rw [List.append_nil] at htable
  rw [Object.symbols, hsize, hcontent]
  exact htable

/-- A section. -/
theorem sectionRead (h : FileRead st secs blocks o) (hshape : Shape st) {i : ℕ} {sec : DataSection}
    (hi : predefSecCount ≤ i)
    (hsec : st.sections[i]? = some (some sec)) : SectionRead st o i sec := by
  obtain ⟨off, hlaid⟩ := h.laid.sections
  have hdrop : (st.sections.drop predefSecCount)[i - predefSecCount]? = some (some sec) := by
    rw [List.getElem?_drop, Nat.add_sub_cancel' hi, hsec]
  obtain ⟨off', hblock⟩ := hlaid.sections hdrop
  have hk := h.secBlock hblock
  have hheader := h.header hk
  have hindex : i - predefSecCount + 4 + 1 = i := by
    rw [predefSecCount_eq] at hi ⊢
    omega
  rw [hindex] at hheader
  constructor
  · rw [hheader, h.sectionName]
    rfl
  · rw [hheader]
    rfl
  · rw [hheader]
    rfl
  · rw [hheader]
    rfl
  · rw [hheader]
    rfl
  · intro hvirtual
    have htype : sec.type ≠ shtNobits := by
      rw [hshape.isVirtual (List.mem_of_getElem? hsec)] at hvirtual
      exact of_decide_eq_false hvirtual
    have hrange : (st.sectionBlock off' sec).hdr.range.2 = sec.data.length := by
      show (if sec.type = shtNobits then 0 else if sec.isVirtual then sec.vsize else sec.data.length) = _
      rw [if_neg htype, hvirtual]
      rfl
    rw [hheader, h.content hk, hrange]
    exact List.take_left
  · intro hgroup
    rw [hheader]
    exact ⟨if_pos hgroup, if_pos hgroup⟩

/-- What is stored for a relocation. -/
theorem relaOf_fields (hlocals : st.localSymbols.length ≤ 2 ^ 31) {reloc : Relocation}
    (hsymbol : reloc.symbol < 2 ^ 32)
    (htype : reloc.type < 2 ^ 32) (haddend : -2 ^ 31 ≤ reloc.addend ∧ reloc.addend < 2 ^ 31) :
    (st.relaOf reloc).sym = st.elfSym reloc.symbol ∧ (st.relaOf reloc).type = reloc.type ∧
      signed64 (st.relaOf reloc).addend = reloc.addend := by
  have hidx := symIdx_lt reloc.symbol
  have hsym :
    (reloc.symbol + if symIsLocal reloc.symbol then 0
    else (2 ^ 31 + st.localSymbols.length) % 2 ^ 32) % 2 ^ 32 =
      st.elfSym reloc.symbol := by
    rw [elfSym]
    split
    · rename_i hlocal
      simp only [symIsLocal, decide_eq_true_eq] at hlocal
      rw [symIdx]
      omega
    · rename_i hglobal
      simp only [symIsLocal, decide_eq_true_eq] at hglobal
      rw [symIdx] at hidx ⊢
      omega
  refine ⟨?_, ?_, signed64_unsigned64 (by omega) (by omega)⟩
  · rw [Rela.sym, relaOf]
    simp only [hsym]
    omega
  · rw [Rela.type, relaOf]
    simp only [hsym]
    omega

theorem fits_relaOf {reloc : Relocation} (hoffset : reloc.offset < 2 ^ 32) (htype : reloc.type < 2 ^ 32) :
    Fits (st.relaOf reloc).fields := by
  intro f hf
  simp only [Rela.fields, List.mem_cons, List.not_mem_nil, or_false] at hf
  rcases hf with rfl | rfl | rfl
  · show reloc.offset < 2 ^ 64
    omega
  · show (reloc.symbol + if symIsLocal reloc.symbol then 0
      else (2 ^ 31 + st.localSymbols.length) % 2 ^ 32) % 2 ^ 32 * 2 ^ 32 +
      reloc.type < 2 ^ 64
    omega
  · show (reloc.addend % 2 ^ 64).toNat < 2 ^ 64
    omega

/-- The relocations of a section. -/
theorem relasRead (h : FileRead st secs blocks o) (hshape : Shape st) (hfit : st.FieldsFit) {i : ℕ}
    {sec : DataSection}
    (hsec : st.sections[i]? = some (some sec)) (hrelocs : sec.hasRelocs = true) : RelasRead st o i sec := by
  obtain ⟨ws, hws⟩ := hshape.rooms
  have hi : predefSecCount ≤ i := by
    by_contra hlt
    have hget := congrArg (fun xs : List (Option Bool) => xs[i]?) hws
    have hreplicate :
      (List.replicate predefSecCount false).flatMap room = List.replicate predefSecCount (some false) := by
      rw [predefSecCount_eq]
      rfl
    simp only [kinds, List.map_map, List.getElem?_map, hsec] at hget
    rw [List.flatMap_append, hreplicate, List.getElem?_append_left (by rw [List.length_replicate]; omega),
      List.getElem?_replicate_of_lt (not_le.mp hlt)] at hget
    simp [DataSection.kind, hrelocs] at hget
  obtain ⟨off, hlaid⟩ := h.laid.sections
  have hdrop : (st.sections.drop predefSecCount)[i - predefSecCount]? = some (some sec) := by
    rw [List.getElem?_drop, Nat.add_sub_cancel' hi, hsec]
  obtain ⟨off', hblock⟩ := hlaid.relas hdrop hrelocs
  have hk := h.secBlock hblock
  have hheader := h.header hk
  have hindex : i - predefSecCount + 1 + 4 + 1 = i + 1 := by
    rw [predefSecCount_eq] at hi ⊢
    omega
  rw [hindex, Nat.add_sub_cancel' hi] at hheader
  rw [Nat.add_sub_cancel' hi] at hk
  have hfits := hfit.relocs sec (List.mem_of_getElem? hsec)
  constructor
  · rw [hheader, h.sectionName]
    rfl
  · rw [hheader]
    rfl
  · rw [hheader]
    rfl
  · rw [hheader]
    rfl
  · have hcontent : o.content (st.relaBlock off' sec i).hdr = (st.relaBlock off' sec i).bytes := by
      rw [h.content hk]
      exact List.take_of_length_le (relaBlock_range ..).ge
    have hsize : (st.relaBlock off' sec i).hdr.size / 24 = (sec.relocs.map st.relaOf).length := by
      rw [List.length_map]
      exact Nat.mul_div_cancel_left _ (by decide)
    have hlen (rela : Rela) (_ : rela ∈ sec.relocs.map st.relaOf) : (pack rela.fields).length = 24 :=
      length_pack _
    have hread (rela : Rela) (hrela : rela ∈ sec.relocs.map st.relaOf) (rest : List UInt8) :
        readRela (pack rela.fields ++ rest) = rela := by
      obtain ⟨reloc, hreloc, rfl⟩ := List.mem_map.mp hrela
      obtain ⟨hoffset, -, htype, -⟩ := hfits reloc hreloc
      exact readRela_pack (fits_relaOf hoffset htype) rest
    have htable := readTable_flatMap hlen hread []
    rw [List.append_nil, List.flatMap_map] at htable
    have hrelas : o.relas (st.relaBlock off' sec i).hdr = sec.relocs.map st.relaOf := by
      rw [Object.relas, hsize, hcontent]
      exact htable
    rw [hheader, hrelas, List.map_map]
    refine List.map_congr_left fun reloc hreloc => ?_
    obtain ⟨-, hsymbol, htype, haddend⟩ := hfits reloc hreloc
    obtain ⟨hsym, htype, haddend⟩ := relaOf_fields hfit.localCount hsymbol htype haddend
    show ((st.relaOf reloc).offset, _, _, _) = _
    rw [hsym, htype, haddend]
    rfl

/-- The table with the sections of symbols. -/
theorem shndxTable (h : FileRead st secs blocks o) (hinv : Inv st) (hfit : st.FieldsFit)
    (hmany : shnLoreserve ≤ st.sections.length) : o.shndxTable (secIdx ".symtab") = st.shndxEntries := by
  obtain ⟨off, heq⟩ := h.laid.eq
  obtain ⟨off', hlaid⟩ := h.laid.sections
  rw [shndxBlocks, if_pos hmany] at heq
  have hfront : (st.nullHdr :: (st.predefBlocks st.headersEnd ++ secs).map Block.hdr).find?
      (fun hdr => hdr.type = shtSymtabShndx ∧ hdr.link = secIdx ".symtab") = none := by
    refine List.find?_eq_none.mpr fun hdr hhdr hfound => ?_
    obtain ⟨htype, hlink⟩ := of_decide_eq_true hfound
    rw [List.map_append, List.mem_cons, List.mem_append] at hhdr
    rcases hhdr with rfl | hhdr | hhdr
    · exact absurd htype (show 0 ≠ 18 by decide)
    · simp only [predefBlocks, List.map_cons, List.map_nil, List.mem_cons, List.not_mem_nil, or_false] at hhdr
      rcases hhdr with rfl | rfl | rfl | rfl
      · exact absurd htype (show 1 ≠ 18 by decide)
      · exact absurd htype (show 2 ≠ 18 by decide)
      · exact absurd htype (show 3 ≠ 18 by decide)
      · exact absurd htype (show 3 ≠ 18 by decide)
    · obtain ⟨block, hblock, rfl⟩ := List.mem_map.mp hhdr
      obtain ⟨sec, -, off'', hkind⟩ := hlaid.kinds hblock
      rcases hkind with rfl | ⟨-, j, -, rfl⟩
      · have hlink' : (if sec.type = shtGroup then secIdx ".symtab" else 0) = secIdx ".symtab" := hlink
        rw [if_neg (show sec.type ≠ shtGroup from
          fun hgroup => absurd (hgroup.symm.trans htype) (by decide)), secIdx_symtab] at hlink'
        exact absurd hlink' (by decide)
      · exact absurd htype (show 4 ≠ 18 by decide)
  have hlen (ref : ℕ) (_ : ref ∈ st.shndxEntries) : (ofNat 4 ref).length = 4 := length_ofNat _ _
  have hk : blocks[(st.predefBlocks st.headersEnd ++ secs).length]? = some (st.shndxBlock off) := by
    rw [heq, List.getElem?_concat_length]
  have hcontent : o.content (st.shndxBlock off).hdr = st.shndxEntries.flatMap (ofNat 4) := by
    rw [h.content hk, shndxBlock_bytes hinv hfit.localCount]
    refine List.take_of_length_le ?_
    rw [length_flatMap hlen, length_shndxEntries]
    rfl
  have hsize : (st.shndxBlock off).hdr.size / 4 = st.shndxEntries.length := by
    rw [length_shndxEntries]
    exact Nat.mul_div_cancel_left _ (by decide)
  have hread (ref : ℕ) (href : ref ∈ st.shndxEntries) (rest : List UInt8) :
      toNat ((ofNat 4 ref ++ rest).take 4) = ref := by
    have hlt : ref < 256 ^ 4 := by
      rw [shndxEntries, resize_eq (hinv.xindex hfit.localCount).locals.length,
        resize_eq (hinv.xindex hfit.localCount).globals.length] at href
      simp only [List.mem_append, List.mem_replicate] at href
      rcases href with (hl | ⟨-, rfl⟩) | (hg | ⟨-, rfl⟩)
      · exact hfit.shndx ref (List.mem_append_left _ hl)
      · decide
      · exact hfit.shndx ref (List.mem_append_right _ hg)
      · decide
    rw [List.take_left' (length_ofNat _ _), toNat_ofNat, Nat.mod_eq_of_lt hlt]
  have htable := @readTable_flatMap _ 4 (fun bs => toNat (bs.take 4)) (ofNat 4) _ hlen hread []
  have hfind : o.headers.find? (fun hdr => hdr.type = shtSymtabShndx ∧ hdr.link = secIdx ".symtab") =
    some (st.shndxBlock off).hdr := by
    rw [h.headers, heq, List.map_append, ← List.cons_append, List.find?_append, hfront, Option.none_or]
    exact List.find?_cons_of_pos (decide_eq_true ⟨rfl, rfl⟩)
  rw [List.append_nil] at htable
  rw [Object.shndxTable, hfind]
  simp only [hsize, hcontent]
  exact htable

end FileRead

/-! ### Symbols -/

/-- Symbols are numbered in the order of the file. -/
theorem getElem?_elfSym {sym : ℕ} {s : Sym} (h : st.getSym sym = some s) :
    (st.localSymbols ++ st.globalSymbols)[st.elfSym sym]? = some s := by
  obtain ⟨-, hs⟩ := getSym_eq_some h
  rw [elfSym]
  split at hs
  · rename_i hlocal
    rw [if_pos hlocal, List.getElem?_append_left (List.getElem?_eq_some_iff.mp hs).1, hs]
  · rename_i hglobal
    rw [if_neg hglobal, List.getElem?_append_right (Nat.le_add_right _ _), Nat.add_sub_cancel_left, hs]

/-- The table with the sections of symbols has those of local and of global symbols. -/
theorem shndxEntries_elfSym (hx : XindexOk st) {sym : ℕ}
    (hidx : symIdx sym < (if symIsLocal sym then st.localShndx else st.globalShndx).length) :
    st.shndxEntries[st.elfSym sym]? = (if symIsLocal sym then st.localShndx
      else st.globalShndx)[symIdx sym]? := by
  have hl := hx.locals.length
  rw [shndxEntries, elfSym]
  split at hidx
  · rename_i hlocal
    rw [if_pos hlocal, if_pos hlocal, List.getElem?_append_left (by rw [length_resize]; omega), resize_eq hl,
      List.getElem?_append_left hidx]
  · rename_i hglobal
    rw [if_neg hglobal, if_neg hglobal, List.getElem?_append_right (by rw [length_resize]; omega),
      length_resize,
      Nat.add_sub_cancel_left, resize_eq hx.globals.length, List.getElem?_append_left hidx]

/-- The section of a symbol is read back. -/
theorem FileRead.symbolSection {secs blocks : List Block} {o : Object} (h : FileRead st secs blocks o)
    (hinv : Inv st)
    (hfit : st.FieldsFit) {sym : ℕ} {s : Sym} (hs : st.getSym sym = some s) :
    (s.shndx = shnUndef ∧ o.symbolSection (secIdx ".symtab") (st.elfSym sym) = shnUndef) ∨
      ∃ ref, st.symSection sym = some ref ∧ o.symbolSection (secIdx ".symtab") (st.elfSym sym) = ref := by
  have hx := hinv.xindex hfit.localCount
  have hget : (o.symbols (o.header (secIdx ".symtab"))).getD (st.elfSym sym) ⟨0, 0, 0, 0, 0, 0⟩ = s := by
    rw [h.symbols hfit, List.getD_eq_getElem?_getD, getElem?_elfSym hs]
    rfl
  simp only [Object.symbolSection, hget, symSection, hs, Option.bind_eq_bind, Option.bind_some]
  cases (hx.table sym).entry (getSym_eq_some hs).2 with
  | inl hlt =>
    have hne : s.shndx ≠ shnXindex := ne_of_lt (hlt.trans (by decide))
    rw [if_neg hne]
    by_cases h0 : s.shndx = shnUndef
    · exact .inl ⟨h0, h0⟩
    · exact .inr ⟨s.shndx, if_pos ⟨hlt, h0⟩, rfl⟩
  | inr hxindex =>
    obtain ⟨heq, hidx⟩ := hxindex
    have hmany : shnLoreserve ≤ st.sections.length := by
      by_contra hfew
      obtain ⟨hl, hg⟩ := hx.few (not_le.mp hfew)
      rw [hl, hg, ite_self] at hidx
      cases hidx
    have hentry := shndxEntries_elfSym hx hidx
    obtain ⟨ref, href⟩ :
        ∃ ref, (if symIsLocal sym then st.localShndx else st.globalShndx)[symIdx sym]? = some ref :=
      ⟨_, List.getElem?_eq_getElem hidx⟩
    refine .inr ⟨ref, ?_, ?_⟩
    · rw [if_neg (fun hlt => absurd (heq ▸ hlt.1) (by decide)), if_pos heq]
      exact href
    · rw [if_pos heq, h.shndxTable hinv hfit hmany, List.getD_eq_getElem?_getD, hentry, href]
      rfl

/-- The symbols are read back. -/
theorem FileRead.symbolsRead {secs blocks : List Block} {o : Object} (h : FileRead st secs blocks o)
    (hinv : Inv st)
    (hfit : st.FieldsFit) : SymbolsRead st o := by
  obtain ⟨off, hheader, -⟩ := h.symtab
  have hinfo : (o.header (secIdx ".symtab")).info = st.localSymbols.length := by
    rw [hheader]
    rfl
  constructor
  · rw [hheader]
    rfl
  · exact hinfo
  · exact h.symbols hfit
  · intro k s hk
    rw [h.symbols hfit, List.getElem?_append] at hk
    rw [hinfo]
    split at hk
    · rename_i hlt
      exact iff_of_true (hinv.shape.locals s (List.mem_of_getElem? hk)) hlt
    · rename_i hge
      exact iff_of_false (hinv.shape.globals s (List.mem_of_getElem? hk)) hge
  · exact h.symbolName
  · intro sym s hs
    rw [h.symbols hfit]
    exact getElem?_elfSym hs
  · exact h.symbolSection hinv hfit

/-! ### Files -/

theorem predefSecCount_le (h : Shape st) : predefSecCount ≤ st.sections.length := by
  obtain ⟨ws, hws⟩ := h.rooms
  have hlen := congrArg List.length hws
  have hreplicate :
    (List.replicate predefSecCount false).flatMap room = List.replicate predefSecCount (some false) := by
    rw [predefSecCount_eq]
    rfl
  rw [kinds, List.length_map, List.length_map, List.flatMap_append, hreplicate, List.length_append,
    List.length_replicate] at hlen
  omega

/-- There is a header for each section. -/
theorem FileLaid.length {secs blocks : List Block} (h : FileLaid st secs blocks) (hshape : Shape st) :
    (st.nullHdr :: blocks.map Block.hdr).length = st.secCount := by
  obtain ⟨off, heq⟩ := h.eq
  obtain ⟨off', hlaid⟩ := h.sections
  have hsecs := hlaid.length
  have hle := predefSecCount_le hshape
  have hpredef : (st.predefBlocks st.headersEnd).length = 4 := rfl
  rw [List.length_drop] at hsecs
  rw [predefSecCount_eq] at hsecs hle
  rw [heq, List.length_cons, List.length_map, List.length_append, List.length_append, hpredef, hsecs,
    shndxBlocks, secCount]
  split
  · rw [List.length_singleton]
    omega
  · rw [List.length_nil]
    omega

theorem length_bytes_le {blocks : List Block} {block : Block} (h : block ∈ blocks) :
    block.bytes.length ≤ blocksLength blocks :=
  List.single_le_sum (fun _ _ => Nat.zero_le _) _ (List.mem_map.mpr ⟨block, h, rfl⟩)

/-- The headers of a file that is not too long fit. -/
theorem FileLaid.fits {secs blocks : List Block} (h : FileLaid st secs blocks) (hfit : st.FieldsFit)
    (hlen : st.headersEnd + blocksLength blocks < 2 ^ 64) : ∀ block ∈ blocks, Fits block.hdr.fields := by
  intro block hblock
  obtain ⟨off, heq⟩ := h.eq
  obtain ⟨off', hlaid⟩ := h.sections
  have hwithin :
    block.hdr.offset + block.hdr.range.2 ≤ st.headersEnd + (contentBytes (contents blocks)).length :=
    (h.laidOut.within (c := (block.hdr, block.bytes)) (List.mem_map.mpr ⟨block, hblock, rfl⟩)).2
  have hbytes := length_bytes_le hblock
  rw [length_contentBytes] at hwithin
  have hoff : block.hdr.offset < 2 ^ 64 := by omega
  have hrange : block.hdr.range.2 < 2 ^ 64 := by omega
  have hmem := heq ▸ hblock
  rw [List.mem_append, List.mem_append] at hmem
  rcases hmem with (hmem | hmem) | hmem
  · refine fits_predefBlocks hfit hmem hoff ?_
    simp only [predefBlocks, List.mem_cons, List.not_mem_nil, or_false] at hmem
    rcases hmem with rfl | rfl | rfl | rfl <;> exact hrange
  · obtain ⟨sec, hsec, off₂, hkind⟩ := hlaid.kinds hmem
    have hsec' := List.mem_of_mem_drop hsec
    rcases hkind with rfl | ⟨-, j, hj, rfl⟩
    · refine fits_sectionBlock hfit hsec' hoff ?_
      have hdata : sec.data.length ≤ (st.sectionBlock off₂ sec).bytes.length :=
        (List.prefix_append _ _).length_le
      omega
    · have hcount := hfit.sectionCount
      rw [List.length_drop] at hj
      exact fits_relaBlock hfit hsec' hoff (by omega) hrange
  · rw [shndxBlocks] at hmem
    split at hmem
    · cases List.mem_singleton.mp hmem
      exact fits_shndxBlock hoff hrange
    · cases hmem

/-- The parts of a file that is read lie within it. -/
theorem FileRead.partsOk {secs blocks : List Block} {o : Object} (h : FileRead st secs blocks o)
    (hshape : Shape st)
    (hlen : o.bytes.length = st.headersEnd + blocksLength blocks) : PartsOk o := by
  have hcount : o.headers.length = st.secCount := by rw [h.headers, h.laid.length hshape]
  have htail : o.headers.tail = blocks.map Block.hdr := by rw [h.headers, List.tail_cons]
  constructor
  · intro hdr hhdr
    rw [htail] at hhdr
    obtain ⟨block, hblock, rfl⟩ := List.mem_map.mp hhdr
    have hwithin :=
      h.laid.laidOut.within (c := (block.hdr, block.bytes)) (List.mem_map.mpr ⟨block, hblock, rfl⟩)
    rw [length_contentBytes] at hwithin
    rw [hcount, hlen]
    exact hwithin
  · intro hdr hhdr
    rw [htail] at hhdr
    obtain ⟨block, hblock, rfl⟩ := List.mem_map.mp hhdr
    exact h.laid.aligned block hblock
  · have hpairwise := h.laid.laidOut.pairwise
    rw [contents, List.pairwise_map] at hpairwise
    rw [htail, List.pairwise_map]
    exact hpairwise

/-- The file's header fits. -/
theorem fits_ehdr {target : TargetInfoElf} (hmachine : target.elfMachine < 2 ^ 16) :
    Fits (st.ehdr target).fields := by
  have hshstrndx : secIdx ".shstrtab" < 2 ^ 16 := by decide +kernel
  intro f hf
  simp only [ehdr, Ehdr.fields, List.mem_cons, List.not_mem_nil, or_false] at hf
  rcases hf with rfl | rfl | rfl | rfl | rfl | rfl | rfl | rfl | rfl | rfl | rfl | rfl | rfl
  · decide
  · exact hmachine
  · decide
  · decide
  · decide
  · decide
  · decide
  · decide
  · decide
  · decide
  · decide
  · show (if st.secCount < shnLoreserve then st.secCount else 0) < 256 ^ 2
    split
    · rename_i hlt
      exact hlt.trans (by decide)
    · decide
  · exact hshstrndx

theorem secCount_le (st : ElfState) : st.secCount ≤ st.sections.length + 1 := by
  rw [secCount]
  split <;> omega

theorem fits_nullHdr (hfit : st.FieldsFit) : Fits st.nullHdr.fields := by
  have hcount := hfit.sectionCount
  have hle := secCount_le st
  have h0 : 0 < 2 ^ 64 := by decide
  have h0' : 0 < 2 ^ 32 := by decide
  refine fits_shdr h0' h0' h0 rfl h0 ?_ h0' h0' h0 h0
  show (if st.secCount < shnLoreserve then 0 else st.secCount) < _
  split
  · exact h0
  · omega

end ElfState

open AssemblerElf in
/-- **The object file is read back**: after any calls, the file that is built has the sections, the
symbols and the relocations of the assembler. -/
theorem buildObjectFile_read {target : TargetInfoElf} {ops : List AsmOp} {st : AssemblerElf}
    (h : run target.toTargetInfo (new target.toTargetInfo) ops = some st)
    (hmachine : target.elfMachine < 2 ^ 16)
    (hfit : st.elf.FieldsFit) (hroom : ∀ sec, some sec ∈ st.elf.sections → sec.hasRelocs = false →
      sec.relocs = []) :
    ∃ bytes, st.elf.buildObjectFile target = some bytes ∧
      (bytes.length < 2 ^ 64 → ∃ o, readObject bytes = some o ∧ RoundTrip st.elf o) := by
  have hinv := run_inv h
  obtain ⟨secs, blocks, hblocks, hlaid⟩ := blocks_laid hinv hfit.localCount
  set hdrs := st.elf.nullHdr :: blocks.map Block.hdr with hhdrs
  set bytes :=
    ident target ++ pack (st.elf.ehdr target).fields ++ headerBytes hdrs ++
      blocks.flatMap Block.bytes with hbytes
  have hbuild : st.elf.buildObjectFile target = some bytes := by
    rw [buildObjectFile, hblocks]
    rfl
  have hcount := hlaid.length hinv.shape
  have hfront : (ident target ++ pack (st.elf.ehdr target).fields ++ headerBytes hdrs).length =
    st.elf.headersEnd := by
    rw [List.length_append, List.length_append, length_pack, length_headerBytes, hcount, headersEnd]
    rfl
  have hlen : bytes.length = st.elf.headersEnd + blocksLength blocks := by
    rw [hbytes, List.length_append, hfront, ← contentBytes_contents, length_contentBytes]
  refine ⟨bytes, hbuild, fun hsize => ?_⟩
  have hfits := hlaid.fits hfit (hlen ▸ hsize)
  have hhdrsFit (hdr : Shdr) (hhdr : hdr ∈ hdrs) : Fits hdr.fields := by
    cases List.mem_cons.mp hhdr with
    | inl hnull =>
      rw [hnull]
      exact fits_nullHdr hfit
    | inr hblock =>
      obtain ⟨block, hmem, rfl⟩ := List.mem_map.mp hblock
      exact hfits block hmem
  have hnum :
    (if (st.elf.ehdr target).shnum = 0 then (hdrs.headD {}).size else (st.elf.ehdr target).shnum) =
    hdrs.length := by
    have hpos : 0 < st.elf.secCount := by
      rw [← hcount]
      exact Nat.succ_pos _
    rw [hcount]
    show (if (if st.elf.secCount < shnLoreserve then st.elf.secCount else 0) = 0 then
        (if st.elf.secCount < shnLoreserve then 0 else st.elf.secCount)
      else (if st.elf.secCount < shnLoreserve then st.elf.secCount else 0)) = _
    split_ifs <;> omega
  have hread : readObject bytes = some ⟨bytes, hdrs, secIdx ".shstrtab"⟩ :=
    readObject_file rfl rfl (fits_ehdr hmachine) ⟨rfl, rfl, rfl⟩ rfl hhdrsFit hnum (List.cons_ne_nil _ _)
  have hfile : FileRead st.elf secs blocks ⟨bytes, hdrs, secIdx ".shstrtab"⟩ := by
    refine ⟨hlaid, rfl, rfl, ?_⟩
    show bytes.drop _ = _
    rw [hbytes, List.drop_left' hfront, contentBytes_contents]
  refine ⟨_, hread, hcount, fun hi hsec => hfile.sectionRead hinv.shape hi hsec, fun hsec hrelocs => ?_,
    hfile.symbolsRead hinv hfit,
    hfile.partsOk hinv.shape hlen⟩
  refine hfile.relasRead hinv.shape hfit hsec (hrelocs.elim id fun hne => ?_)
  by_contra hno
  exact hne (hroom _ (List.mem_of_getElem? hsec) (Bool.eq_false_iff.mpr hno))

/-- A function with four bytes, and a reference to it in them. -/
def callOps : List AsmOp :=
  [.elf (.symAdd (ascii "f") .globalSym 2), .elf (.setData 5 [0, 0, 0, 0x94]), .elf (.symDef (2 ^ 31) 5 0 4),
    .elf (.relocSec 5 (2 ^ 31) 283 0 0)]

open AssemblerElf in
/-- The object file with a function is read back. -/
theorem buildObjectFile_read_call : ∃ st, run targetInfoA64 (new targetInfoA64) callOps = some st ∧
    ∃ bytes, st.elf.buildObjectFile targetInfoElfA64 = some bytes ∧
      (bytes.length < 2 ^ 64 → ∃ o, readObject bytes = some o ∧ RoundTrip st.elf o) := by
  have heval : (run targetInfoA64 (new targetInfoA64) callOps).any (fun st =>
      st.elf.FieldsFit ∧ ∀ sec ∈ st.elf.sections.reduceOption, sec.hasRelocs = false →
        sec.relocs = []) = true := by decide +kernel
  obtain ⟨st, hrun, hprop⟩ := (Option.any_eq_true ..).mp heval
  obtain ⟨hfit, hroom⟩ := of_decide_eq_true hprop
  exact ⟨st, hrun,
    @buildObjectFile_read targetInfoElfA64 callOps st hrun (by decide) hfit
    (forall_mem_reduceOption.mp hroom)⟩

open AssemblerElf in
/-- **Parts are not aligned like their sections**: the code of a new assembler has alignment 16, and is
at an offset that is not a multiple of 16. -/
theorem buildObjectFile_textAlign :
    ∃ bytes o, run targetInfoA64 (new targetInfoA64) [] = some (new targetInfoA64) ∧
      (new targetInfoA64).elf.buildObjectFile targetInfoElfA64 = some bytes ∧ readObject bytes = some o ∧
      (o.header 5).addralign = 16 ∧ ¬16 ∣ (o.header 5).offset := by
  have heval : (((new targetInfoA64).elf.buildObjectFile targetInfoElfA64).bind readObject).any
      (fun o => (o.header 5).addralign = 16 ∧ ¬16 ∣ (o.header 5).offset) = true := by decide +kernel
  obtain ⟨o, ho, hprop⟩ := (Option.any_eq_true ..).mp heval
  obtain ⟨bytes, hbytes, hread⟩ := Option.bind_eq_some_iff.mp ho
  exact ⟨bytes, o, rfl, hbytes, hread, of_decide_eq_true hprop⟩

end Tpde.Assembler
