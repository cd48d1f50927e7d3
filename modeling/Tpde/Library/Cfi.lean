import Tpde.Library.Leb128

/-!
# Call frame instructions

How an unwinder reads the instructions of a common information entry and of the entry
of a function: they describe rows, that of an address is made by those that are for
addresses up to it. A row says where the canonical frame address is, and at what
distance from it the registers of the caller were saved.
-/

namespace Cfi

open Leb128

/-! ### Instructions -/

/-- The instructions for frames with saved registers; offsets of registers are factored. -/
inductive Inst where
  | nop
  | advanceLoc (delta : ℕ)
  | offset (reg n : ℕ)
  | defCfa (reg off : ℕ)
  | defCfaRegister (reg : ℕ)
  | defCfaOffset (off : ℕ)
  deriving DecidableEq

/-- `DW_CFA_offset_extended`, `DW_CFA_def_cfa`, `DW_CFA_def_cfa_register` and `DW_CFA_def_cfa_offset`. -/
def cfaOffsetExtended : UInt8 := 0x05
def cfaDefCfa : UInt8 := 0x0c
def cfaDefCfaRegister : UInt8 := 0x0d
def cfaDefCfaOffset : UInt8 := 0x0e

/-- Two numbers. -/
def readUlebs (bs : List UInt8) : Option ((ℕ × ℕ) × List UInt8) :=
  (readUleb bs).bind fun x => (readUleb x.2).map fun y => ((x.1, y.1), y.2)

/-- An instruction, and what is behind it. Two have an operand in the low bits of their opcode. -/
def readInst : List UInt8 → Option (Inst × List UInt8)
  | [] => none
  | b :: bs =>
    if b.toNat / 64 = 1 then some (.advanceLoc (b.toNat % 64), bs)
    else if b.toNat / 64 = 2 then (readUleb bs).map fun x => (.offset (b.toNat % 64) x.1, x.2)
    else if b = 0 then some (.nop, bs)
    else if b = cfaOffsetExtended then (readUlebs bs).map fun x => (.offset x.1.1 x.1.2, x.2)
    else if b = cfaDefCfa then (readUlebs bs).map fun x => (.defCfa x.1.1 x.1.2, x.2)
    else if b = cfaDefCfaRegister then (readUleb bs).map fun x => (.defCfaRegister x.1, x.2)
    else if b = cfaDefCfaOffset then (readUleb bs).map fun x => (.defCfaOffset x.1, x.2)
    else none

/-- The bytes are those of the instruction, whatever is behind them. -/
def IsInst (i : Inst) (bs : List UInt8) : Prop := ∀ rest, readInst (bs ++ rest) = some (i, rest)

/-- The bytes are those of the instructions. -/
inductive IsInsts : List Inst → List UInt8 → Prop
  | nil : IsInsts [] []
  | cons {i : Inst} {is : List Inst} {b bs : List UInt8} (h : IsInst i b) (hs : IsInsts is bs) :
      IsInsts (i :: is) (b ++ bs)

theorem IsInst.insts {i : Inst} {bs : List UInt8} (h : IsInst i bs) : IsInsts [i] bs := by
  have hs := IsInsts.cons h .nil
  rwa [List.append_nil] at hs

theorem IsInsts.append {is js : List Inst} {bs cs : List UInt8} (h : IsInsts is bs) (h' : IsInsts js cs) :
    IsInsts (is ++ js) (bs ++ cs) := by
  induction h with
  | nil => exact h'
  | cons hi _ ih =>
    rw [List.append_assoc]
    exact .cons hi ih

theorem IsInsts.snoc {is : List Inst} {i : Inst} {bs b : List UInt8} (hs : IsInsts is bs) (h : IsInst i b) :
    IsInsts (is ++ [i]) (bs ++ b) := hs.append h.insts

theorem IsInst.length_pos {i : Inst} {bs : List UInt8} (h : IsInst i bs) : 0 < bs.length := by
  cases bs with
  | nil => cases h []
  | cons b bs => exact Nat.succ_pos _

theorem isInst_nop : IsInst .nop [0] := fun _ => rfl

theorem isInsts_nops (n : ℕ) : IsInsts (List.replicate n .nop) (List.replicate n 0) := by
  induction n with
  | zero => exact .nil
  | succ n ih => exact .cons isInst_nop ih

/-! ### Rows -/

/-- Where the frame is, from the value of a register, and where registers are, from the frame on. The
last rule of a register counts. -/
structure Row where
  cfaReg : ℕ
  cfaOff : ℕ
  rules : List (ℕ × ℤ)
  deriving DecidableEq

/-- The rule of a register. -/
def Row.rule (row : Row) (reg : ℕ) : Option ℤ := (row.rules.find? fun x => x.1 = reg).map Prod.snd

theorem Row.rule_eq_none {row : Row} {reg : ℕ} (h : ∀ x ∈ row.rules, x.1 ≠ reg) : row.rule reg = none := by
  rw [Row.rule, List.find?_eq_none.mpr fun x hx => by simpa using h x hx]
  rfl

/-- What an instruction does to the row. -/
def Inst.apply (daf : ℤ) : Inst → Row → Row
  | .nop, row => row
  | .advanceLoc _, row => row
  | .offset reg n, row => { row with rules := (reg, n * daf) :: row.rules }
  | .defCfa reg off, row => { row with cfaReg := reg, cfaOff := off }
  | .defCfaRegister reg, row => { row with cfaReg := reg }
  | .defCfaOffset off, row => { row with cfaOff := off }

/-- How far an instruction advances the location. -/
def Inst.delta : Inst → ℕ
  | .advanceLoc delta => delta
  | _ => 0

/-- The row for an address, from location `loc` on, by at most `n` instructions. -/
def run (caf : ℕ) (daf : ℤ) (pc : ℕ) : ℕ → ℕ → List UInt8 → Row → Option Row
  | _, _, [], row => some row
  | 0, _, _ :: _, _ => none
  | n + 1, loc, b :: bs, row =>
    match readInst (b :: bs) with
    | none => none
    | some (i, rest) =>
      if pc < loc + caf * i.delta then some row
      else run caf daf pc n (loc + caf * i.delta) rest (i.apply daf row)

/-- The row for an address of a function: the instructions of the common entry come first. -/
def unwind (caf : ℕ) (daf : ℤ) (cie fde : List UInt8) (pc : ℕ) : Option Row :=
  (run caf daf 0 cie.length 0 cie ⟨0, 0, []⟩).bind (run caf daf pc fde.length 0 fde)

/-- **The row behind all the instructions**, for an address that they do not go past. -/
theorem run_insts {caf : ℕ} {daf : ℤ} {pc : ℕ} {is : List Inst} {bs : List UInt8} (h : IsInsts is bs) :
    ∀ {n loc : ℕ} {row : Row}, loc + caf * (is.map Inst.delta).sum ≤ pc → bs.length ≤ n →
      run caf daf pc n loc bs row = some (is.foldl (fun row i => i.apply daf row) row) := by
  induction h with
  | nil =>
    intro n loc row _ _
    cases n <;> rfl
  | cons hi hs ih =>
    rename_i i is b bs
    intro n loc row hpc hn
    have hpos := hi.length_pos
    rw [List.map_cons, List.sum_cons, Nat.mul_add] at hpc
    rw [List.length_append] at hn
    obtain ⟨n, rfl⟩ : ∃ m, n = m + 1 := ⟨n - 1, by omega⟩
    obtain ⟨x, xs, hx⟩ := List.exists_cons_of_length_pos (show 0 < (b ++ bs).length by simp; omega)
    rw [hx, run, ← hx, hi bs]
    show (if pc < loc + caf * i.delta then some row
      else run caf daf pc n (loc + caf * i.delta) bs (i.apply daf row)) = _
    rw [if_neg (by omega), ih (by omega) (by omega)]
    rfl

theorem foldl_nops (daf : ℤ) (n : ℕ) (row : Row) :
    (List.replicate n Inst.nop).foldl (fun row i => i.apply daf row) row = row := by
  induction n with
  | zero => rfl
  | succ n ih => exact ih

end Cfi
