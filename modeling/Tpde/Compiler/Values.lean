import Tpde.Library.RegMachine

/-!
# Values and registers

What the compiler keeps of the values while it emits the code of an instruction: the
assignment of each value part, the register file with its lock counts, and the
references to values and parts through which an instruction reads them. Parts are those
of the general purpose bank, and the assertions of the code stop it (`Stop.assertion`).

A register is used by a value part or as a scratch register. The locks on it are those
held by the instruction, a multiset `held`, and one more for a fixed assignment (`Regs`).
Each value that is still needed is in its register, in its stack slot, or the address of
a variable (`Homes`). Every operation here keeps both.
-/

namespace Tpde.Values

open RegMachine

/-- A general purpose register by its id. -/
abbrev Reg := ℕ

/-- A value part by the index of its value. -/
abbrev Val := ℕ

/-- The targets. -/
inductive Arch where
  | x64 | a64
  deriving DecidableEq, Repr

/-- `allocatable_regs` of the general purpose bank: all but `SP` and `BP`, or all but
`R16`, `R17`, `FP` and `SP`. -/
def Arch.allocatable : Arch → List Reg
  | .x64 => [0, 1, 2, 3, 6, 7, 8, 9, 10, 11, 12, 13, 14, 15]
  | .a64 => [0, 1, 2, 3, 4, 5, 6, 7, 8, 9, 10, 11, 12, 13, 14, 15, 18, 19, 20, 21, 22, 23, 24, 25, 26,
    27, 28, 30]

/-- The frame pointer, `BP` or `R29`. -/
def Arch.framePtr : Arch → Reg
  | .x64 => 5
  | .a64 => 29

/-- The operations of the two instruction sets that the code here is made of. -/
inductive Op where
  | mov (s : Reg)
  | movImm (x : Word)
  | lea (base : Option Reg) (sc : ℕ) (idx : Option Reg) (disp : Word)
  | shl (s : Reg) (n : ℕ)
  | sar (s : Reg) (n : ℕ)
  | mulImm (s : Reg) (x : Word)
  | mul (a b : Reg)
  | madd (a b c : Reg)
  | add (a b : Reg)
  | addLsl (a b : Reg) (n : ℕ)
  | addImm (a : Reg) (x : Word)
  | sext (s : Reg) (n : ℕ)
  deriving DecidableEq, Repr

/-- What an operation computes. -/
def Op.eval : Op → (Reg → Word) → Word
  | mov s, rf => rf s
  | movImm x, _ => x
  | lea base sc idx disp, rf => (base.elim 0 rf) + (idx.elim 0 rf) * BitVec.ofNat 64 sc + disp
  | shl s n, rf => rf s <<< (n % 64)
  | sar s n, rf => (rf s).sshiftRight n
  | mulImm s x, rf => rf s * x
  | mul a b, rf => rf a * rf b
  | madd a b c, rf => rf a * rf b + rf c
  | add a b, rf => rf a + rf b
  | addLsl a b n, rf => rf a + rf b <<< n
  | addImm a x, rf => rf a + x
  | sext s n, rf => RegMachine.sext n (rf s)

/-- How compiling stops: at an assertion, without a register left, at an instruction that
is not supported, or where the language leaves a result undefined. -/
inductive Stop where
  | assertion | outOfRegisters | unsupported | undefined
  deriving DecidableEq, Repr

/-- The assignment of a value part, with the reference count of its value. `reg` is its
register where `register_valid`. -/
structure Assignment where
  bits : ℕ
  reg : Option Reg
  stackValid : Bool
  fixed : Bool
  variableRef : Bool
  stackVariable : Bool
  frameOff : Word
  delayFree : Bool
  pendingFree : Bool
  refs : ℕ
  deriving DecidableEq, Repr

/-- The register file, the assignments and the code so far. A register is unused, used as
a scratch register (`some none`) or used by a value. -/
structure St where
  used : Reg → Option (Option Val)
  locks : Reg → ℕ
  val : Val → Option Assignment
  fixedCount : ℕ
  code : List (Instr Val Op)

/-- What the compiler reads besides: the target, which immediates `ADDxi` encodes, how far
away the last use of a value is, and the register proposed for a fixed assignment. -/
structure Config where
  arch : Arch
  encodes : Word → Bool
  lastUseDist : Val → ℕ
  fixedReg : St → Option Reg

namespace St

/-- Appends code. -/
def emits (s : St) (code : List (Instr Val Op)) : St := { s with code := s.code ++ code }

/-- Appends an instruction. -/
def emit (s : St) (i : Instr Val Op) : St := s.emits [i]

/-- Changes an assignment. -/
def setVal (s : St) (v : Val) (a : Assignment) : St := { s with val := Function.update s.val v (some a) }

/-- `mark_used`. -/
def markUsed (s : St) (r : Reg) (o : Option Val) : Except Stop St :=
  if s.used r = none ∧ s.locks r = 0 then .ok { s with used := Function.update s.used r (some o) }
    else .error .assertion

/-- `unmark_used`. -/
def unmarkUsed (s : St) (r : Reg) : Except Stop St :=
  if s.used r ≠ none ∧ s.locks r = 0 then .ok { s with used := Function.update s.used r none }
    else .error .assertion

/-- `mark_fixed`. -/
def markFixed (s : St) (r : Reg) : Except Stop St :=
  if s.used r ≠ none ∧ s.locks r = 0 then .ok { s with locks := Function.update s.locks r 1 }
    else .error .assertion

/-- `unmark_fixed`. -/
def unmarkFixed (s : St) (r : Reg) : Except Stop St :=
  if s.used r ≠ none ∧ s.locks r = 1 then .ok { s with locks := Function.update s.locks r 0 }
    else .error .assertion

/-- `inc_lock_count`. -/
def incLockCount (s : St) (r : Reg) : Except Stop St :=
  if s.used r ≠ none then .ok { s with locks := Function.update s.locks r (s.locks r + 1) }
    else .error .assertion

/-- `dec_lock_count`. -/
def decLockCount (s : St) (r : Reg) : Except Stop St :=
  if s.used r ≠ none ∧ 0 < s.locks r then
    .ok { s with locks := Function.update s.locks r (s.locks r - 1) }
  else .error .assertion

/-- `dec_lock_count_must_zero`. -/
def decLockCountMustZero (s : St) (r : Reg) (sub : ℕ) : Except Stop St :=
  if s.used r ≠ none ∧ s.locks r = sub then .ok { s with locks := Function.update s.locks r 0 }
    else .error .assertion

/-- `spill`: stores the part where its slot does not have it. -/
def spill (s : St) (v : Val) (a : Assignment) (r : Reg) : St :=
  if !a.stackValid && !a.variableRef then (s.emit (.spill v r a.bits)).setVal v { a with
    stackValid := true } else s

/-- `evict_reg`. -/
def evictReg (s : St) (r : Reg) : Except Stop St :=
  match s.used r with
  | some (some v) =>
    match s.val v with
    | some a =>
      if s.locks r = 0 ∧ a.reg = some r then
        ((s.spill v a r).setVal v { a with
          stackValid := a.stackValid || !a.variableRef, reg := none }).unmarkUsed r
      else .error .assertion
    | none => .error .assertion
  | _ => .error .assertion

end St

/-- How good a victim a part is. -/
def score (a : Assignment) (lastUseDist : ℕ) : ℕ :=
  let refsLeft := if a.pendingFree then 0 else a.refs
  (if a.stackValid then 2 ^ 31 else 0) |||
    ((if lastUseDist < 0x8000 then 0x8000 - lastUseDist else 0) <<< 16) |||
    (if refsLeft < 0xffff then 0x10000 - refsLeft else 1)

namespace Config

variable (c : Config)

/-- `select_reg_evict`'s search: the first register of a variable, or the one with the
highest score. -/
def candidate (s : St) : List Reg → Option Reg → ℕ → Except Stop (Option Reg)
  | [], best, _ => .ok best
  | r :: rs, best, maxScore =>
    if s.locks r ≠ 0 then candidate s rs best maxScore
    else
      match s.used r with
      | none => candidate s rs best maxScore
      | some none => .error .assertion
      | some (some v) =>
        match s.val v with
        | none => .error .assertion
        | some a =>
          if a.variableRef then .ok (some r)
          else if maxScore < score a (c.lastUseDist v) then
            candidate s rs (some r) (score a (c.lastUseDist v))
          else candidate s rs best maxScore

/-- `select_reg`: a register that is not used, or one whose value is evicted. -/
def selectReg (s : St) : Except Stop (Reg × St) :=
  match c.arch.allocatable.find? fun r => s.used r == none with
  | some r => .ok (r, s)
  | none => do
    match ← c.candidate s c.arch.allocatable none 0 with
    | none => .error .outOfRegisters
    | some r => return (r, ← s.evictReg r)

/-- `ScratchReg::alloc`. -/
def allocScratch (s : St) : Except Stop (Reg × St) := do
  let (r, s) ← c.selectReg s
  return (r, ← (← s.markUsed r none).markFixed r)

end Config

namespace St

/-- `ScratchReg::reset`. -/
def resetScratch (s : St) (r : Reg) : Except Stop St := do (← s.unmarkFixed r).unmarkUsed r

/-- `ScratchReg::alloc_specific`. -/
def allocSpecific (s : St) (r : Reg) : Except Stop St := do
  if s.locks r ≠ 0 then throw .assertion
  let s ← if s.used r = none then pure s else s.evictReg r
  (← s.markUsed r none).markFixed r

end St

/-! ### References to values -/

/-- The mode of a reference: not counted, counted, or the last one, which owns the value. -/
inductive Mode where
  | unowned | counted | owned
  deriving DecidableEq, Repr

/-- `ValueRef` with an assignment. -/
structure ValueRef where
  v : Val
  mode : Mode
  deriving DecidableEq, Repr

namespace St

/-- `val_ref` of a value with an assignment. -/
def valRef (s : St) (v : Val) : Except Stop ValueRef :=
  match s.val v with
  | none => .error .assertion
  | some a =>
    if a.pendingFree || (!a.variableRef && a.refs == 0) then .error .assertion
    else if a.variableRef then .ok ⟨v, .unowned⟩
    else if a.refs ≤ 1 ∧ !a.delayFree then .ok ⟨v, .owned⟩
    else .ok ⟨v, .counted⟩

/-- `free_assignment`. -/
def freeAssignment (s : St) (v : Val) (a : Assignment) : Except Stop St := do
  let s ← match a.reg with
    | none => pure s
    | some r =>
      if a.fixed then do (← { s with fixedCount := s.fixedCount - 1 }.decLockCountMustZero r 1).unmarkUsed r
      else s.unmarkUsed r
  return { s with val := Function.update s.val v none }

/-- `release_assignment`. -/
def releaseAssignment (s : St) (v : Val) (a : Assignment) : Except Stop St :=
  if !a.delayFree then s.freeAssignment v a else .ok (s.setVal v { a with pendingFree := true })

/-- `ValueRef::reset`. -/
def resetRef (s : St) (vr : ValueRef) : Except Stop St :=
  match vr.mode with
  | .unowned => .ok s
  | _ =>
    match s.val vr.v with
    | none => .error .assertion
    | some a =>
      if a.pendingFree || a.refs == 0 then .error .assertion
      else
        let a := { a with refs := a.refs - 1 }
        if a.refs = 0 then (s.setVal vr.v a).releaseAssignment vr.v a else .ok (s.setVal vr.v a)

end St

/-! ### References to parts -/

/-- `ValuePart`: nothing, a constant, a temporary that owns its register, or a part of a
value, whose register is there while the part is locked. -/
inductive ValuePart where
  | none
  | const (x : Word)
  | temp (r : Reg)
  | value (v : Val) (owned : Bool) (reg : Option Reg)
  deriving DecidableEq, Repr

/-- `ValueRef::part`. -/
def ValueRef.part (vr : ValueRef) : ValuePart := .value vr.v (vr.mode == .owned) Option.none

namespace St

/-- `can_salvage`. -/
def canSalvage (s : St) : ValuePart → Bool
  | .temp _ => true
  | .value v owned _ => owned && (s.val v).any (·.reg.isSome)
  | _ => false

/-- `salvage_keep_used`. -/
def salvageKeepUsed (s : St) : ValuePart → Except Stop (Reg × St)
  | .temp r => do return (r, ← s.unmarkFixed r)
  | .value v _ locked =>
    match s.val v with
    | some a =>
      match a.reg with
      | some r => do
        let s ← match locked with
          | some r' => s.decLockCount r'
          | Option.none => pure s
        if !(a.fixed || s.locks r == 0) then throw .assertion
        let s ← if a.fixed then s.decLockCount r else pure s
        return (r, s.setVal v { a with reg := Option.none, fixed := false })
      | Option.none => .error .assertion
    | Option.none => .error .assertion
  | _ => .error .assertion

/-- `salvage`. -/
def salvage (s : St) (p : ValuePart) : Except Stop (Reg × St) := do
  let (r, s) ← s.salvageKeepUsed p
  return (r, ← s.unmarkUsed r)

/-- `ValuePart::reset`. -/
def resetPart (s : St) : ValuePart → Except Stop St
  | .temp r => do (← s.unmarkFixed r).unmarkUsed r
  | .value v owned (some r) =>
    if owned then
      match s.val v with
      | some a => do
        let s := s.setVal v { a with reg := Option.none, fixed := false }
        (← s.decLockCountMustZero r (if a.fixed then 2 else 1)).unmarkUsed r
      | Option.none => .error .assertion
    else s.decLockCount r
  | _ => .ok s

end St

/-- `load_to_reg`: the part with its register, which is locked. -/
def Config.loadToReg (c : Config) (s : St) : ValuePart → Except Stop (Reg × ValuePart × St)
  | .const x => do
    let (r, s) ← c.allocScratch s
    return (r, .temp r, s.emit (.set r (.movImm x)))
  | .value v owned none =>
    match s.val v with
    | none => .error .assertion
    | some a =>
      match a.reg with
      | some r => do return (r, .value v owned (some r), ← s.incLockCount r)
      | none => do
        let (r, s) ← c.selectReg s
        let s ← s.markUsed r (some v)
        let s ← (s.setVal v { a with reg := some r }).incLockCount r
        if !a.variableRef && !a.stackValid then throw .assertion
        return (r, .value v owned (some r),
          s.emit (if a.variableRef then .address r v else .reload r v a.bits))
  | _ => .error .assertion

/-- `generate_raw_intext` to 64 bits with the sign. -/
def Arch.rawSext (arch : Arch) (dst src : Reg) (n : ℕ) : List (Instr Val Op) :=
  match arch with
  | .x64 =>
    if n = 8 ∨ n = 16 ∨ n = 32 then [.set dst (.sext src n)]
    else (if dst ≠ src then [.set dst (.mov src)] else []) ++ [.set dst (.shl dst (64 - n)),
      .set dst (.sar dst (64 - n))]
  | .a64 => [.set dst (.sext src n)]

/-- `into_extended` of a part of a value, and the end of that part. -/
def Config.intoExtended (c : Config) (s : St) (p : ValuePart) (n : ℕ) : Except Stop (ValuePart × St) := do
  let (src, p, s) ← c.loadToReg s p
  if s.canSalvage p then
    let (r, s) ← s.salvageKeepUsed p
    let s ← s.markFixed r
    let s := { s with used := Function.update s.used r (some none) }
    return (.temp r, s.emits (c.arch.rawSext r src n))
  else
    let (r, s) ← c.allocScratch s
    let s := s.emits (c.arch.rawSext r src n)
    return (.temp r, ← s.resetPart p)

end Tpde.Values
