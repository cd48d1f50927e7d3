import Tpde.Library.Cfi
import Tpde.Util.Leb

/-!
# Writing call frame instructions

The `eh_write_inst` functions of `AssemblerElf`, and the instructions that their
bytes are.
-/

namespace Tpde.Assembler

open Cfi Util

/-! ### The model -/

/-- The constants of `dwarf`. -/
def dwCfaNop : UInt8 := 0
def dwCfaOffsetExtended : UInt8 := 0x05
def dwCfaDefCfa : UInt8 := 0x0c
def dwCfaDefCfaRegister : UInt8 := 0x0d
def dwCfaDefCfaOffset : UInt8 := 0x0e
def dwCfaOffset : UInt8 := 0x80
def dwCfaAdvanceLoc : UInt8 := 0x40
def dwarfCfiPrimaryOpcodeMask : UInt8 := 0xc0

/-- `eh_write_inst` with one argument. -/
def ehWriteInst (opcode : UInt8) (arg : ℕ) : List UInt8 :=
  if opcode &&& dwarfCfiPrimaryOpcodeMask ≠ 0 then [opcode ||| UInt8.ofNat arg] else opcode :: ulebWrite arg

/-- `eh_write_inst` with two arguments. -/
def ehWriteInst₂ (opcode : UInt8) (firstArg secondArg : ℕ) : List UInt8 :=
  ehWriteInst opcode firstArg ++ ulebWrite secondArg

/-- `eh_align_frame`: what is appended to `size` bytes. -/
def ehAlignFrame (size : ℕ) : List UInt8 := List.replicate ((8 - size % 8) % 8) dwCfaNop

/-! ### The instructions -/

/-- An operand in the low bits of an opcode. -/
theorem toNat_or {opcode : UInt8} {arg k : ℕ} (ho : opcode.toNat = 64 * k) (harg : arg < 64) :
    (opcode ||| UInt8.ofNat arg).toNat = 64 * k + arg := by
  have h := Nat.two_pow_add_eq_or_of_lt (show arg < 2 ^ 6 from harg) k
  rw [UInt8.toNat_or, ho, UInt8.toNat_ofNat', Nat.mod_eq_of_lt (show arg < 2 ^ 8 by omega)]
  exact h.symm

theorem isInst_advanceLoc {delta : ℕ} (h : delta < 64) :
    IsInst (.advanceLoc delta) [dwCfaAdvanceLoc ||| UInt8.ofNat delta] := by
  intro rest
  have hbyte : (dwCfaAdvanceLoc ||| UInt8.ofNat delta).toNat = 64 * 1 + delta := toNat_or rfl h
  rw [List.singleton_append, readInst, hbyte, if_pos (by omega), show (64 * 1 + delta) % 64 = delta by omega]

theorem isInst_ehWriteInst_advanceLoc {delta : ℕ} (h : delta < 64) :
    IsInst (.advanceLoc delta) (ehWriteInst dwCfaAdvanceLoc delta) := isInst_advanceLoc h

theorem isInst_offset {reg n : ℕ} (h : reg < 64) :
    IsInst (.offset reg n) (ehWriteInst₂ dwCfaOffset reg n) := by
  intro rest
  have hbyte : (dwCfaOffset ||| UInt8.ofNat reg).toNat = 64 * 2 + reg := toNat_or rfl h
  show readInst ((dwCfaOffset ||| UInt8.ofNat reg) :: ulebWrite n ++ rest) = _
  rw [List.cons_append, readInst, hbyte, if_neg (by omega), if_pos (by omega), ulebWrite_isUleb,
    show (64 * 2 + reg) % 64 = reg by omega]
  rfl

theorem isInst_offsetExtended (reg n : ℕ) :
    IsInst (.offset reg n) (ehWriteInst₂ dwCfaOffsetExtended reg n) := by
  intro rest
  show readInst (dwCfaOffsetExtended :: ulebWrite reg ++ ulebWrite n ++ rest) = _
  have hread : readUlebs (ulebWrite reg ++ (ulebWrite n ++ rest)) = some ((reg, n), rest) := by
    rw [readUlebs, ulebWrite_isUleb, Option.bind_some, ulebWrite_isUleb]
    rfl
  rw [List.append_assoc, List.cons_append, readInst, hread]
  rfl

theorem isInst_defCfa (reg off : ℕ) : IsInst (.defCfa reg off) (ehWriteInst₂ dwCfaDefCfa reg off) := by
  intro rest
  show readInst (dwCfaDefCfa :: ulebWrite reg ++ ulebWrite off ++ rest) = _
  have hread : readUlebs (ulebWrite reg ++ (ulebWrite off ++ rest)) = some ((reg, off), rest) := by
    rw [readUlebs, ulebWrite_isUleb, Option.bind_some, ulebWrite_isUleb]
    rfl
  rw [List.append_assoc, List.cons_append, readInst, hread]
  rfl

theorem isInst_defCfaRegister (reg : ℕ) :
    IsInst (.defCfaRegister reg) (ehWriteInst dwCfaDefCfaRegister reg) := by
  intro rest
  show readInst (dwCfaDefCfaRegister :: (ulebWrite reg ++ rest)) = _
  rw [readInst, ulebWrite_isUleb]
  rfl

theorem isInst_defCfaOffset (off : ℕ) : IsInst (.defCfaOffset off) (ehWriteInst dwCfaDefCfaOffset off) := by
  intro rest
  show readInst (dwCfaDefCfaOffset :: (ulebWrite off ++ rest)) = _
  rw [readInst, ulebWrite_isUleb]
  rfl

end Tpde.Assembler
