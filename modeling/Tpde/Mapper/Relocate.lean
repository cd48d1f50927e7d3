import Tpde.Library.BitFields
import Tpde.Library.Bytes
import Tpde.Mapper.Layout

/-!
# Relocating an image

The middle part of `ElfMapper::map`: section contents are copied to their
addresses in the mapping and relocated there. A relocation that cannot be served
makes `map` fail. Calls that are out of range and accesses through the GOT go
through a slot of the PLT/GOT area, which is made when it is first needed: eight
bytes of code that jumps to the address in the eight bytes behind it.
-/

namespace Tpde.Mapper

open Bytes BitFields

/-! ### The model -/

/-- The relocation types of `elf.h` that the mapper knows. -/
inductive RelocType where
  | R_X86_64_64
  | R_X86_64_PC32
  | R_X86_64_PLT32
  | R_X86_64_GOTPCREL
  | R_AARCH64_ABS64
  | R_AARCH64_PREL32
  | R_AARCH64_CALL26
  | R_AARCH64_ADR_PREL_PG_HI21
  | R_AARCH64_ADD_ABS_LO12_NC
  | R_AARCH64_ADR_GOT_PAGE
  | R_AARCH64_LD64_GOT_LO12_NC
  | other (type : ℕ)
  deriving DecidableEq

/-- `TargetArch`. -/
inductive Arch where
  | x86_64
  | aarch64
  deriving DecidableEq

/-- `Relocation`; the symbol is an id with its highest bit set for global symbols. -/
structure Relocation where
  offset : ℕ
  symbol : ℕ
  type : RelocType
  addend : BitVec 32
  deriving DecidableEq

/-- What the mapper reads of a symbol: name, `st_shndx`, `sym_section(sym)` and `st_value`. -/
structure ElfSym where
  name : List UInt8
  shndx : ℕ
  sec : ℕ
  value : BitVec 64
  deriving Inhabited

/-- A section with its contents; one without contents (`SHT_NOBITS`) has a size of its own. -/
structure ObjSection extends Section where
  data : List UInt8
  relocs : List Relocation
  size_eq : nobits = false → data.length = size

/-- The assembler, as the mapper reads it. -/
structure Object where
  sections : List (Option ObjSection)
  ehFrame : ℕ
  localSymbols : List ElfSym
  globalSymbols : List ElfSym

/-- `sym_idx`: global symbols behind local ones. -/
def Object.symIdx (obj : Object) (sym : ℕ) : ℕ :=
  if sym < 2 ^ 31 then sym else sym - 2 ^ 31 + obj.localSymbols.length

/-- `got_plt_slot_count`, and the number of symbols. -/
def Object.symCount (obj : Object) : ℕ := obj.localSymbols.length + obj.globalSymbols.length

/-- `SHN_UNDEF`, `SHN_LORESERVE`, `SHN_ABS` and `SHN_XINDEX`. -/
def shnUndef : ℕ := 0
def shnLoreserve : ℕ := 0xff00
def shnAbs : ℕ := 0xfff1
def shnXindex : ℕ := 0xffff

section
variable (resolver : List UInt8 → BitVec 64) (mappedAddr : ℕ) (secAddr : ℕ → ℕ)

/-- `sym_addr`, without the cache: the address, and whether the section index is handled. -/
def symAddr (sym : ElfSym) : BitVec 64 × Bool :=
  if sym.shndx = shnUndef then (resolver sym.name, true)
  else if sym.shndx = shnAbs then (sym.value, true)
  else if sym.shndx < shnLoreserve ∨ sym.shndx = shnXindex then
    (BitVec.ofNat 64 mappedAddr + BitVec.ofNat 64 (secAddr sym.sec) + sym.value, true)
  else (0, false)

end

/-- `util::sext`. -/
def sext (val : BitVec 64) (bits : ℕ) : BitVec 64 := (val <<< (64 - bits)).sshiftRight (64 - bits)

/-- `util::align_down(val, 0x1000)`. -/
def alignDownPage (val : BitVec 64) : BitVec 64 := val &&& ~~~0xfff#64

/-- The state of the loop: memory, PLT/GOT slots by symbol index, the next free slot, and `success`. -/
structure MapState where
  mem : Mem
  gotPltSlots : ℕ → Option ℕ
  nextPltEntry : ℕ
  success : Bool

/-- `jmp [rip + 2]; ud2` and `ldr x16, pc+8; br x16`. -/
def pltCode : Arch → List UInt8
  | .x86_64 => [0xff, 0x25, 2, 0, 0, 0, 0x0f, 0x0b]
  | .aarch64 => [0x50, 0, 0, 0x58, 0, 2, 0x1f, 0xd6]

variable (arch : Arch)

namespace MapState

/-- A new slot for a symbol. -/
def newSlot (st : MapState) (idx : ℕ) (addr : BitVec 64) : MapState :=
  { st with
    mem := (st.mem.store st.nextPltEntry (pltCode arch)).storeNat (st.nextPltEntry + 8) 8 addr.toNat
    gotPltSlots := Function.update st.gotPltSlots idx (some st.nextPltEntry)
    nextPltEntry := st.nextPltEntry + pltEntrySize }

/-- `plt_entry`: the slot of a symbol, which is made if there is none. -/
def pltEntry (st : MapState) (idx : ℕ) (addr : BitVec 64) : MapState × ℕ :=
  match st.gotPltSlots idx with
  | some slot => (st, slot)
  | none => (st.newSlot arch idx addr, st.nextPltEntry)

/-- `success = false` unless `ok`. -/
def check (st : MapState) (ok : Bool) : MapState := { st with success := st.success && ok }

/-- Store the low bytes of a value at `pc`. -/
def put (st : MapState) (pc n : ℕ) (v : BitVec 64) : MapState :=
  { st with mem := st.mem.storeNat pc n v.toNat }

/-- `blend`. -/
def blend (st : MapState) (pc : ℕ) (mask data : BitVec 32) : MapState :=
  let dest := BitVec.ofNat 32 (st.mem.loadNat pc 4)
  { st with mem := st.mem.storeNat pc 4 (BitFields.blend mask data dest).toNat }

/-- The two halves of the page number, for `ADRP`. -/
def blendPage (st : MapState) (pc : ℕ) (v : BitVec 64) : MapState :=
  let v := v >>> 12
  st.blend pc 0x60ffffe0 (((v &&& 3) <<< 29 ||| ((v >>> 2) &&& 0x7ffff) <<< 5).setWidth 32)

end MapState

/-- `resolve_reloc`, for the symbol's index, its address, and whether that is handled. -/
def resolveReloc (st : MapState) (pc : ℕ) (type : RelocType) (idx : ℕ) (symOk : Bool)
    (sym addend : BitVec 64) :
    MapState :=
  let st := st.check symOk
  let syma := sym + addend
  let pc' := BitVec.ofNat 64 pc
  match arch, type with
  | .x86_64, .R_X86_64_64 => st.put pc 8 syma
  | .x86_64, .R_X86_64_PC32 =>
    let v := syma - pc'
    (st.check (sext v 32 = v)).put pc 4 v
  | .x86_64, .R_X86_64_PLT32 =>
    let v := syma - pc'
    if sext v 32 = v then st.put pc 4 v
    else
      let (st, slot) := st.pltEntry arch idx sym
      let v := BitVec.ofNat 64 slot + addend - pc'
      (st.check (sext v 32 = v)).put pc 4 v
  | .x86_64, .R_X86_64_GOTPCREL =>
    let (st, slot) := st.pltEntry arch idx sym
    let v := BitVec.ofNat 64 (slot + 8) + addend - pc'
    (st.check (sext v 32 = v)).put pc 4 v
  | .aarch64, .R_AARCH64_ABS64 => st.put pc 8 syma
  | .aarch64, .R_AARCH64_PREL32 =>
    let v := syma - pc'
    (st.check (sext v 32 = v)).put pc 4 v
  | .aarch64, .R_AARCH64_CALL26 =>
    let v := syma - pc'
    let (st, v) :=
      if v &&& 3 ≠ 0 ∨ sext v 28 ≠ v then
        let (st, slot) := st.pltEntry arch idx sym
        (st, BitVec.ofNat 64 slot + addend - pc')
      else (st, v)
    (st.check (sext v 32 = v)).blend pc 0x03ffffff ((v >>> 2).setWidth 32)
  | .aarch64, .R_AARCH64_ADR_PREL_PG_HI21 =>
    let v := alignDownPage syma - alignDownPage pc'
    (st.check (sext v 33 = v)).blendPage pc v
  | .aarch64, .R_AARCH64_ADD_ABS_LO12_NC => st.blend pc (0xfff <<< 10) ((syma <<< 10).setWidth 32)
  | .aarch64, .R_AARCH64_ADR_GOT_PAGE =>
    let (st, slot) := st.pltEntry arch idx sym
    let v := alignDownPage (BitVec.ofNat 64 (slot + 8)) - alignDownPage pc'
    (st.check (sext v 33 = v)).blendPage pc v
  | .aarch64, .R_AARCH64_LD64_GOT_LO12_NC =>
    let (st, slot) := st.pltEntry arch idx sym
    st.blend pc (0xfff <<< 10) (((BitVec.ofNat 64 (slot + 8) &&& 0xfff) <<< 7).setWidth 32)
  | _, _ => st.check false

/-- What the loop does: copy the contents of a section to an address, or relocate at `pc`. -/
inductive Task where
  | copy (addr : ℕ) (data : List UInt8)
  | reloc (pc : ℕ) (r : Relocation)

section
variable (obj : Object) (sym : ℕ → BitVec 64 × Bool)

/-- One step; `sym` gives the addresses of symbols by index, and whether they are handled. -/
def step (st : MapState) : Task → MapState
  | .copy addr data => { st with mem := st.mem.store addr data }
  | .reloc pc r =>
    let idx := obj.symIdx r.symbol
    resolveReloc arch st pc r.type idx (sym idx).2 (sym idx).1 (r.addend.signExtend 64)

/-- A run of the loop. -/
def relocate (st : MapState) (ts : List Task) : MapState := ts.foldl (step arch obj sym) st

end

namespace Object

variable (obj : Object)

/-- `get_section(ref)`, which is none for a relocation section. -/
def getSection (ref : ℕ) : Option ObjSection := obj.sections[ref]?.join

/-- The symbol of an index. -/
def symbol (idx : ℕ) : ElfSym := (obj.localSymbols ++ obj.globalSymbols).getD idx default

/-- The sections in the image, with a PLT/GOT slot for every symbol. -/
def placed (pageSize : ℕ) : List Placed :=
  (image pageSize obj.ehFrame obj.symCount (obj.sections.map (Option.map ObjSection.toSection))).1

/-- `get_section(ref).addr`. -/
def secAddr (pageSize ref : ℕ) : ℕ := (((obj.placed pageSize).find? (·.ref = ref)).map Placed.addr).getD 0

/-- What is done for a section at an address. -/
def sectionTasks (addr : ℕ) (sec : ObjSection) : List Task :=
  (if sec.nobits then [] else [.copy addr sec.data]) ++ sec.relocs.map fun r => .reloc (addr + r.offset) r

/-- What the loop does, for a mapping at an address. -/
def tasks (pageSize mappedAddr : ℕ) : List Task :=
  (obj.placed pageSize).flatMap fun p =>
    (obj.getSection p.ref).elim [] (sectionTasks (mappedAddr + p.addr))

/-- The addresses of symbols. -/
def symAddrs (pageSize : ℕ) (resolver : List UInt8 → BitVec 64) (mappedAddr idx : ℕ) : BitVec 64 × Bool :=
  symAddr resolver mappedAddr (obj.secAddr pageSize) (obj.symbol idx)

end Object

/-- The state before the loop: a mapping of zeros, and no slots. -/
def MapState.init (mappedAddr : ℕ) : MapState := ⟨fun _ => 0, fun _ => none, mappedAddr, true⟩

/-- `ElfMapper::map`, for the address that `mmap` gives (none if it fails) and whether `mprotect`
succeeds: the state at the end if `map` returns true. -/
def map (pageSize : ℕ) (obj : Object) (resolver : List UInt8 → BitVec 64) (mmapRes : Option ℕ)
    (mprotectOk : Bool) : Option MapState :=
  mmapRes.bind fun mappedAddr =>
    let st := relocate arch obj (obj.symAddrs pageSize resolver mappedAddr) (.init mappedAddr)
      (obj.tasks pageSize mappedAddr)
    if st.success && mprotectOk then some st else none

end Tpde.Mapper
