import Tpde.Library.Bytes

/-!
# Relocatable object files

The tables of a 64-bit ELF file of low byte order, as its format describes them: records
of numbers of fixed widths, strings that end with a zero byte, and section headers that
say where in the file the contents of a section are. What does not fit into the fields
of the format is in its extensions: the number of sections in the first section header,
and the section of a symbol in a table of its own.
-/

namespace Elf

open Bytes

/-! ### Records -/

/-- Numbers with their widths, as bytes. -/
def pack (fields : List (ℕ × ℕ)) : List UInt8 := fields.flatMap fun f => ofNat f.1 f.2

/-- The numbers of some widths. -/
def unpack : List ℕ → List UInt8 → List ℕ
  | [], _ => []
  | w :: ws, bs => toNat (bs.take w) :: unpack ws (bs.drop w)

theorem length_pack (fields : List (ℕ × ℕ)) : (pack fields).length = (fields.map Prod.fst).sum := by
  induction fields with
  | nil => rfl
  | cons f fields ih =>
    rw [pack, List.flatMap_cons, List.length_append, length_ofNat, List.map_cons, List.sum_cons, ← ih, pack]

/-- Numbers that fit are read back. -/
theorem unpack_pack (rest : List UInt8) : ∀ {fields : List (ℕ × ℕ)}, (∀ f ∈ fields, f.2 < 256 ^ f.1) →
    unpack (fields.map Prod.fst) (pack fields ++ rest) = fields.map Prod.snd
  | [], _ => rfl
  | f :: fields, h => by
    have hbytes : pack (f :: fields) ++ rest = ofNat f.1 f.2 ++ (pack fields ++ rest) := by
      rw [pack, List.flatMap_cons, List.append_assoc]
      rfl
    rw [List.map_cons, unpack, hbytes, List.take_left' (length_ofNat _ _),
      List.drop_left' (length_ofNat _ _), toNat_ofNat,
      Nat.mod_eq_of_lt (h f List.mem_cons_self), unpack_pack rest fun f hf => h f (List.mem_cons_of_mem _ hf)]
    rfl

/-! ### Constants -/

def shnUndef : ℕ := 0
def shnLoreserve : ℕ := 0xff00
def shnXindex : ℕ := 0xffff
def shtNull : ℕ := 0
def shtProgbits : ℕ := 1
def shtSymtab : ℕ := 2
def shtStrtab : ℕ := 3
def shtRela : ℕ := 4
def shtNobits : ℕ := 8
def shtInitArray : ℕ := 14
def shtFiniArray : ℕ := 15
def shtGroup : ℕ := 17
def shtSymtabShndx : ℕ := 18
def shfWrite : ℕ := 0x1
def shfAlloc : ℕ := 0x2
def shfExecinstr : ℕ := 0x4
def shfInfoLink : ℕ := 0x40
def shfGroup : ℕ := 0x200
def shfTls : ℕ := 0x400
def stbLocal : ℕ := 0
def stbGlobal : ℕ := 1
def stbWeak : ℕ := 2
def sttNotype : ℕ := 0
def sttSection : ℕ := 3
def grpComdat : ℕ := 1

/-! ### Tables -/

/-- `Elf64_Sym`. -/
structure Sym where
  name : ℕ
  info : ℕ
  other : ℕ
  shndx : ℕ
  value : ℕ
  size : ℕ
  deriving DecidableEq

/-- The binding and the type of a symbol are one byte. -/
def symInfo (bind type : ℕ) : ℕ := bind * 16 + type % 16

def Sym.bind (sym : Sym) : ℕ := sym.info / 16

def Sym.fields (sym : Sym) : List (ℕ × ℕ) :=
  [(4, sym.name), (1, sym.info), (1, sym.other), (2, sym.shndx), (8, sym.value), (8, sym.size)]

/-- `Elf64_Shdr`. -/
structure Shdr where
  name : ℕ := 0
  type : ℕ := 0
  flags : ℕ := 0
  addr : ℕ := 0
  offset : ℕ := 0
  size : ℕ := 0
  link : ℕ := 0
  info : ℕ := 0
  addralign : ℕ := 0
  entsize : ℕ := 0
  deriving DecidableEq

def Shdr.fields (hdr : Shdr) : List (ℕ × ℕ) :=
  [(4, hdr.name), (4, hdr.type), (8, hdr.flags), (8, hdr.addr), (8, hdr.offset), (8, hdr.size),
    (4, hdr.link), (4, hdr.info),
    (8, hdr.addralign), (8, hdr.entsize)]

/-- `Elf64_Rela`, with its addend as it is stored. -/
structure Rela where
  offset : ℕ
  info : ℕ
  addend : ℕ
  deriving DecidableEq

def Rela.fields (rela : Rela) : List (ℕ × ℕ) := [(8, rela.offset), (8, rela.info), (8, rela.addend)]

/-- The symbol and the type of a relocation. -/
def Rela.sym (rela : Rela) : ℕ := rela.info / 2 ^ 32
def Rela.type (rela : Rela) : ℕ := rela.info % 2 ^ 32

/-- A number of eight bytes with its sign. -/
def signed64 (n : ℕ) : ℤ := if n < 2 ^ 63 then n else n - 2 ^ 64

/-- A signed number as it is stored. -/
def unsigned64 (v : ℤ) : ℕ := (v % 2 ^ 64).toNat

theorem signed64_unsigned64 {v : ℤ} (h : -2 ^ 63 ≤ v) (h' : v < 2 ^ 63) : signed64 (unsigned64 v) = v := by
  unfold signed64 unsigned64
  split <;> omega

/-- `Elf64_Ehdr`, behind its identification. -/
structure Ehdr where
  type : ℕ
  machine : ℕ
  version : ℕ
  entry : ℕ := 0
  phoff : ℕ := 0
  shoff : ℕ
  flags : ℕ := 0
  ehsize : ℕ
  phentsize : ℕ := 0
  phnum : ℕ := 0
  shentsize : ℕ
  shnum : ℕ
  shstrndx : ℕ
  deriving DecidableEq

def Ehdr.fields (hdr : Ehdr) : List (ℕ × ℕ) :=
  [(2, hdr.type), (2, hdr.machine), (4, hdr.version), (8, hdr.entry), (8, hdr.phoff), (8, hdr.shoff),
    (4, hdr.flags),
    (2, hdr.ehsize), (2, hdr.phentsize), (2, hdr.phnum), (2, hdr.shentsize), (2, hdr.shnum),
      (2, hdr.shstrndx)]

/-- The fields fit. -/
def Fits (fields : List (ℕ × ℕ)) : Prop := ∀ f ∈ fields, f.2 < 256 ^ f.1

instance (fields : List (ℕ × ℕ)) : Decidable (Fits fields) := inferInstanceAs (Decidable (∀ f ∈ fields, _))

/-- `ELFMAG`, 64 bit, low byte order, version 1. -/
def identMagic : List UInt8 := [0x7f, 0x45, 0x4c, 0x46, 2, 1, 1]

/-! ### Reading -/

def readSym (bs : List UInt8) : Sym :=
  match unpack [4, 1, 1, 2, 8, 8] bs with
  | [name, info, other, shndx, value, size] => ⟨name, info, other, shndx, value, size⟩
  | _ => ⟨0, 0, 0, 0, 0, 0⟩

def readShdr (bs : List UInt8) : Shdr :=
  match unpack [4, 4, 8, 8, 8, 8, 4, 4, 8, 8] bs with
  | [name, type, flags, addr, offset, size, link, info, addralign, entsize] =>
    ⟨name, type, flags, addr, offset, size, link, info, addralign, entsize⟩
  | _ => {}

def readRela (bs : List UInt8) : Rela :=
  match unpack [8, 8, 8] bs with
  | [offset, info, addend] => ⟨offset, info, addend⟩
  | _ => ⟨0, 0, 0⟩

def readEhdr (bs : List UInt8) : Option Ehdr :=
  match unpack [2, 2, 4, 8, 8, 8, 4, 2, 2, 2, 2, 2, 2] bs with
  | [type, machine, version, entry, phoff, shoff, flags, ehsize, phentsize, phnum, shentsize, shnum,
    shstrndx] =>
    some ⟨type, machine, version, entry, phoff, shoff, flags, ehsize, phentsize, phnum, shentsize,
      shnum, shstrndx⟩
  | _ => none

theorem readSym_pack {sym : Sym} (h : Fits sym.fields) (rest : List UInt8) :
    readSym (pack sym.fields ++ rest) = sym := by
  have hread := unpack_pack rest h
  simp only [readSym, Sym.fields, List.map_cons, List.map_nil] at hread ⊢
  rw [hread]

theorem readShdr_pack {hdr : Shdr} (h : Fits hdr.fields) (rest : List UInt8) :
    readShdr (pack hdr.fields ++ rest) = hdr := by
  have hread := unpack_pack rest h
  simp only [readShdr, Shdr.fields, List.map_cons, List.map_nil] at hread ⊢
  rw [hread]

theorem readRela_pack {rela : Rela} (h : Fits rela.fields) (rest : List UInt8) :
    readRela (pack rela.fields ++ rest) = rela := by
  have hread := unpack_pack rest h
  simp only [readRela, Rela.fields, List.map_cons, List.map_nil] at hread ⊢
  rw [hread]

theorem readEhdr_pack {hdr : Ehdr} (h : Fits hdr.fields) (rest : List UInt8) :
    readEhdr (pack hdr.fields ++ rest) = some hdr := by
  have hread := unpack_pack rest h
  simp only [readEhdr, Ehdr.fields, List.map_cons, List.map_nil] at hread ⊢
  rw [hread]

/-- The string at an offset. -/
def cstring (bs : List UInt8) (off : ℕ) : List UInt8 := (bs.drop off).takeWhile fun b => b ≠ 0

/-- The string is at an offset of the table, with its end. -/
def StringAt (bs : List UInt8) (off : ℕ) (str : List UInt8) : Prop := str ++ [0] <+: bs.drop off

namespace StringAt

variable {bs bs' str : List UInt8} {off : ℕ}

theorem mono (h : StringAt bs off str) (hbs : bs <+: bs') : StringAt bs' off str := h.trans (hbs.drop off)

theorem of_append (pre str post : List UInt8) : StringAt (pre ++ (str ++ [0] ++ post)) pre.length str := by
  rw [StringAt, List.drop_left]
  exact List.prefix_append ..

/-- A table is read up to the end of the string. -/
theorem cstring_eq (h : StringAt bs off str) (hzero : 0 ∉ str) : cstring bs off = str := by
  obtain ⟨post, hpost⟩ := h
  rw [cstring, ← hpost, List.append_assoc, List.takeWhile_append_of_pos]
  · simp
  · intro b hb
    simpa using ne_of_mem_of_not_mem hb hzero

end StringAt

/-- The records of a table, each of `w` bytes. -/
def readTable {α : Type} (w : ℕ) (read : List UInt8 → α) (n : ℕ) (bs : List UInt8) : List α :=
  (List.range n).map fun i => read (bs.drop (w * i))

/-- A table is read back. -/
theorem readTable_flatMap {α : Type} {w : ℕ} {read : List UInt8 → α} {bytes : α → List UInt8} {xs : List α}
    (hlen : ∀ x ∈ xs, (bytes x).length = w) (hread : ∀ x ∈ xs, ∀ rest, read (bytes x ++ rest) = x)
    (rest : List UInt8) :
    readTable w read xs.length (xs.flatMap bytes ++ rest) = xs := by
  induction xs with
  | nil => rfl
  | cons x xs ih =>
    have htail := ih (fun y hy => hlen y (List.mem_cons_of_mem _ hy)) fun y hy =>
      hread y (List.mem_cons_of_mem _ hy)
    rw [readTable, List.length_cons, List.range_succ_eq_map, List.map_cons, List.map_map, List.flatMap_cons,
      List.append_assoc, Nat.mul_zero, List.drop_zero, hread x List.mem_cons_self]
    congr 1
    refine Eq.trans (List.map_congr_left fun i _ => ?_) htail
    show read ((bytes x ++ (xs.flatMap bytes ++ rest)).drop (w * (i + 1))) = _
    rw [show w * (i + 1) = w + w * i by ring, ← List.drop_drop, List.drop_left' (hlen x List.mem_cons_self)]

theorem length_flatMap {α : Type} {w : ℕ} {bytes : α → List UInt8} {xs : List α}
    (h : ∀ x ∈ xs, (bytes x).length = w) :
    (xs.flatMap bytes).length = w * xs.length := by
  induction xs with
  | nil => rfl
  | cons x xs ih =>
    rw [List.flatMap_cons, List.length_append, h x List.mem_cons_self,
      ih fun y hy => h y (List.mem_cons_of_mem _ hy),
      List.length_cons]
    ring

/-! ### Files -/

/-- A file with its section headers. -/
structure Object where
  bytes : List UInt8
  headers : List Shdr
  shstrndx : ℕ
  deriving DecidableEq

/-- A relocatable file. If the number of sections is not in the header, it is the size of the first
section. -/
def readObject (bytes : List UInt8) : Option Object :=
  if bytes.take 7 = identMagic then
    (readEhdr (bytes.drop 16)).bind fun ehdr =>
      if ehdr.type = 1 ∧ ehdr.version = 1 ∧ ehdr.shentsize = 64 then
        let first := readShdr (bytes.drop ehdr.shoff)
        let shnum := if ehdr.shnum = 0 then first.size else ehdr.shnum
        some ⟨bytes, readTable 64 readShdr shnum (bytes.drop ehdr.shoff), ehdr.shstrndx⟩
      else none
  else none

/-- The part of the file that a header is for. -/
def Shdr.range (hdr : Shdr) : ℕ × ℕ := (hdr.offset, if hdr.type = shtNobits then 0 else hdr.size)

namespace Object

variable (o : Object)

/-- The contents of a section. -/
def content (hdr : Shdr) : List UInt8 := (o.bytes.drop hdr.range.1).take hdr.range.2

/-- The header with an index. -/
def header (i : ℕ) : Shdr := o.headers.getD i {}

/-- The name of a section. -/
def sectionName (hdr : Shdr) : List UInt8 := cstring (o.content (o.header o.shstrndx)) hdr.name

/-- The symbols of a symbol table. -/
def symbols (hdr : Shdr) : List Sym := readTable 24 readSym (hdr.size / 24) (o.content hdr)

/-- The name of a symbol of a symbol table. -/
def symbolName (hdr : Shdr) (sym : Sym) : List UInt8 := cstring (o.content (o.header hdr.link)) sym.name

/-- The table with the sections of the symbols of the table with index `i`. -/
def shndxTable (i : ℕ) : List ℕ :=
  match o.headers.find? fun hdr => hdr.type = shtSymtabShndx ∧ hdr.link = i with
  | some hdr => readTable 4 (fun bs => toNat (bs.take 4)) (hdr.size / 4) (o.content hdr)
  | none => []

/-- The section of the symbol `k` of the table with index `i`. -/
def symbolSection (i k : ℕ) : ℕ :=
  let sym := (o.symbols (o.header i)).getD k ⟨0, 0, 0, 0, 0, 0⟩
  if sym.shndx = shnXindex then (o.shndxTable i).getD k 0 else sym.shndx

/-- The relocations of a section of relocations. -/
def relas (hdr : Shdr) : List Rela := readTable 24 readRela (hdr.size / 24) (o.content hdr)

end Object

end Elf
