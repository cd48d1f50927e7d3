import Tpde.Target.ArgAssign

/-!
# Caller and callee

`CallBuilderBase::add_arg` hands the parts of an argument to the assigner of a call, and
`handle_func_arg` those of a parameter to the assigner of the function, each with flags
that it works out for itself. `CallBuilderBase::add_ret` and `RetBuilder::add` do so for
the parts of the returned value.

Both sides get the same registers and stack offsets (`placements_agree`): the only part
they describe differently is the pointer to the result, where the caller asks for an
alignment of 1 and the callee for none.
-/

namespace Tpde.Target

/-! ### Signatures -/

/-- The bank and the size of a part of a value. -/
structure PartTy where
  bank : ℕ
  size : ℕ
  deriving DecidableEq, Repr

/-- `CallArg::Flag`, with what goes with it. -/
inductive ArgFlag where
  | none
  | zext (bits : ℕ)
  | sext (bits : ℕ)
  | sret
  | byval (align size : ℕ)
  deriving DecidableEq, Repr

/-- An argument, as a call and the function called describe it: its parts, what
`arg_is_int128` and `arg_allow_split_reg_stack_passing` say of it, and its flag. The
result pointer is a pointer. -/
structure Arg where
  parts : List PartTy
  isInt128 : Bool
  allowSplit : Bool
  flag : ArgFlag
  pointer : flag = .sret → parts.length = 1 ∧ isInt128 = false

/-- The signature of a function, and of a call with the same flags. -/
structure Sig where
  args : List Arg
  ret : List PartTy

/-! ### Parts of arguments -/

/-- `CallBuilderBase::add_arg`: what the assigner gets for the parts of an argument. -/
def CallBuilder.addArg (arg : Arg) : List CCAssignment :=
  match arg.flag with
  | .byval align size => [{ byval := true, align := align % 2 ^ 8, size }]
  | _ =>
    let partCount := arg.parts.length
    let (align, consecutive, consecDef) :=
      if arg.isInt128 then (16, true, 0)
      else if 1 < partCount ∧ ¬ arg.allowSplit then
        if 255 < partCount then (1, false, 2 ^ 32 - 1) else (1, true, 0)
      else (1, false, 0)
    arg.parts.mapIdx fun i part =>
      { consecutive := (if consecutive then partCount - i - 1 else consecDef) % 2 ^ 8
        sret := arg.flag = .sret
        align := (if i = 0 then align else 1) % 2 ^ 8
        bank := part.bank
        size := part.size }

/-- `handle_func_arg`: what the assigner gets for the parts of a parameter. -/
def handleFuncArg (arg : Arg) : List CCAssignment :=
  match arg.flag with
  | .byval align size => [{ byval := true, align := align % 2 ^ 8, size }]
  | .sret => (arg.parts.take 1).map fun part => { sret := true, bank := part.bank, size := part.size }
  | _ =>
    let partCount := arg.parts.length
    let (align, consecutive, consecDef) :=
      if arg.isInt128 then (16, 1, 0)
      else if 1 < partCount ∧ ¬ arg.allowSplit then
        if 255 < partCount then (1, 0, 2 ^ 32 - 1) else (1, 1, 0)
      else (1, 0, 0)
    arg.parts.mapIdx fun i part =>
      { consecutive := (if consecutive ≠ 0 then partCount - i - 1 else consecDef) % 2 ^ 8
        align := (if i = 0 then align else 1) % 2 ^ 8
        bank := part.bank
        size := part.size }

/-! ### Returned parts -/

/-- The counters of an assigner for returned parts. -/
structure RetCounts where
  gp : ℕ := 0
  fp : ℕ := 0

/-- `CCAssignerSysV::assign_ret`: AX and DX, XMM0 and XMM1. Nothing where the assertion
fails. -/
def sysVAssignRet (s : RetCounts) (arg : CCAssignment) : Option (RetCounts × ℕ) :=
  if arg.bank = 0 then
    if s.gp + arg.consecutive < 2 then some ({ s with gp := s.gp + 1 }, if s.gp = 0 then 0 else 2) else none
  else
    if s.fp + arg.consecutive < 2 then some ({ s with fp := s.fp + 1 }, if s.fp = 0 then 32 else 33) else none

/-- `CCAssignerAAPCS::assign_ret`: X0 to X7, V0 to V7. -/
def aapcsAssignRet (s : RetCounts) (arg : CCAssignment) : Option (RetCounts × ℕ) :=
  if arg.bank = 0 then
    let gp := if 8 < arg.align then alignUp32 s.gp 2 else s.gp
    if gp + arg.consecutive < 8 then some ({ s with gp := gp + 1 }, gp) else none
  else
    if s.fp + arg.consecutive < 8 then some ({ s with fp := s.fp + 1 }, 32 + s.fp) else none

/-- A target: the assigner of its calling convention. -/
structure Convention (σ : Type) where
  assigner : CCAssigner σ
  assignRet : RetCounts → CCAssignment → Option (RetCounts × ℕ)

def x64 : Convention CCAssignerSysV := ⟨sysV, sysVAssignRet⟩

def a64 : Convention CCAssignerAAPCS := ⟨aapcs, aapcsAssignRet⟩

/-- `CallBuilderBase::add_ret` for each part of the result. -/
def CallBuilder.addRet (parts : List PartTy) : List CCAssignment :=
  parts.map fun part => { bank := part.bank, size := part.size }

/-- `RetBuilder::add` for each part of the value. An integer that is extended before is of
another size. -/
def RetBuilder.add (parts : List PartTy) (extended : Option ℕ) : List CCAssignment :=
  match parts, extended with
  | [part], some size => [{ bank := part.bank, size }]
  | parts, _ => parts.map fun part => { bank := part.bank, size := part.size }

/-! ### Both sides -/

/-- Where a part is passed. -/
inductive Loc where
  | reg (r : ℕ)
  | stack (off : ℕ)
  deriving DecidableEq, Repr

def CCAssignment.loc (p : CCAssignment) : Loc :=
  match p.reg with
  | some r => .reg r
  | none => .stack p.stackOff

/-- Where the parts of the arguments and of the returned value are, and the bytes of the
stack area; no registers for the result where an assertion fails. -/
structure Placement where
  args : List (List Loc)
  stackSize : ℕ
  ret : Option (List ℕ)
  deriving DecidableEq, Repr

variable {σ : Type} (T : Convention σ)

/-- The loop over the returned parts. -/
def Convention.assignRets : RetCounts → List CCAssignment → Option (List ℕ)
  | _, [] => some []
  | s, p :: ps => do
    let (s, r) ← T.assignRet s p
    let rs ← Convention.assignRets s ps
    return r :: rs

/-- A call: the assigner starts anew, gets the arguments and then the parts of the result. -/
def callerPlacement (sig : Sig) : Placement :=
  let (s, args) := T.assigner.assignArgs T.assigner.init (sig.args.map CallBuilder.addArg)
  ⟨args.map (·.map CCAssignment.loc), T.assigner.getStackSize s, T.assignRets {} (CallBuilder.addRet sig.ret)⟩

/-- A function with a return instruction: the assigner is reset before the parameters and
before the return. -/
def calleePlacement (sig : Sig) (extended : Option ℕ) : Placement :=
  let (s, args) := T.assigner.assignArgs T.assigner.init (sig.args.map handleFuncArg)
  ⟨args.map (·.map CCAssignment.loc), T.assigner.getStackSize s,
    T.assignRets {} (RetBuilder.add sig.ret extended)⟩

/-! ### They agree -/

/-- An assigner that goes on in the same state and chooses the same place. -/
def SameStep (A : CCAssigner σ) (s : σ) (p q : CCAssignment) : Prop :=
  (A.assignArg s p).1 = (A.assignArg s q).1 ∧ (A.assignArg s p).2.loc = (A.assignArg s q).2.loc

/-- The result pointer as the caller and as the callee describe it. -/
structure ResultPointer (p q : CCAssignment) : Prop where
  caller : p = { sret := true, align := 1, bank := p.bank, size := p.size }
  callee : q = { sret := true, bank := p.bank, size := p.size }

/-- What both sides hand over differs for the result pointer only. -/
theorem addArg_eq (arg : Arg) : CallBuilder.addArg arg = handleFuncArg arg ∨
    ∃ p q, CallBuilder.addArg arg = [p] ∧ handleFuncArg arg = [q] ∧ ResultPointer p q := by
  obtain ⟨parts, isInt128, allowSplit, flag, pointer⟩ := arg
  have hvalue : CallBuilder.addArg ⟨parts, isInt128, allowSplit, .none, nofun⟩ =
      handleFuncArg ⟨parts, isInt128, allowSplit, .none, nofun⟩ := by
    unfold CallBuilder.addArg handleFuncArg
    cases isInt128 with
    | true => rfl
    | false =>
      by_cases hsplit : 1 < parts.length ∧ ¬ allowSplit
      · by_cases hmany : 255 < parts.length <;> simp [hsplit, hmany]
      · simp only [if_neg hsplit]
        simp
  cases flag with
  | none => exact .inl hvalue
  | zext bits => exact .inl hvalue
  | sext bits => exact .inl hvalue
  | byval align size => exact .inl rfl
  | sret =>
    obtain ⟨hlen, rfl⟩ := pointer rfl
    obtain ⟨part, rfl⟩ := List.length_eq_one_iff.mp hlen
    exact .inr ⟨_, _, rfl, rfl, rfl, rfl⟩

theorem sysV_resultPointer (s : CCAssignerSysV) {p q : CCAssignment} (h : ResultPointer p q) :
    SameStep sysV s p q := by
  rw [h.caller, h.callee]
  simp only [SameStep, sysV, CCAssignerSysV.assignArg, Bool.false_eq_true, if_false, Nat.one_lt_ofNat,
    Nat.ofNat_pos, if_true]
  split_ifs <;> exact ⟨rfl, rfl⟩

theorem aapcs_resultPointer (s : CCAssignerAAPCS) {p q : CCAssignment} (h : ResultPointer p q) :
    SameStep aapcs s p q := by
  rw [h.caller, h.callee]
  exact ⟨rfl, rfl⟩

/-- The arguments, whatever was passed before. -/
theorem assignArgs_agree {A : CCAssigner σ} (hpointer : ∀ s {p q}, ResultPointer p q → SameStep A s p q)
    (args : List Arg) (s : σ) :
    (A.assignArgs s (args.map CallBuilder.addArg)).1 = (A.assignArgs s (args.map handleFuncArg)).1 ∧
      (A.assignArgs s (args.map CallBuilder.addArg)).2.map (·.map CCAssignment.loc) =
        (A.assignArgs s (args.map handleFuncArg)).2.map (·.map CCAssignment.loc) := by
  induction args generalizing s with
  | nil => exact ⟨rfl, rfl⟩
  | cons arg args ih =>
    obtain ⟨hstate, hlocs⟩ :
      (A.assignAll s (CallBuilder.addArg arg)).1 = (A.assignAll s (handleFuncArg arg)).1 ∧
        (A.assignAll s (CallBuilder.addArg arg)).2.map CCAssignment.loc =
          (A.assignAll s (handleFuncArg arg)).2.map CCAssignment.loc := by
      rcases addArg_eq arg with heq | ⟨p, q, hp, hq, hpq⟩
      · rw [heq]
        exact ⟨rfl, rfl⟩
      · obtain ⟨hnext, hloc⟩ := hpointer s hpq
        rw [hp, hq]
        simpa using ⟨hnext, hloc⟩
    simp only [List.map_cons, assignArgs_cons]
    rw [hstate, hlocs]
    obtain ⟨hstate', hlocs'⟩ := ih (A.assignAll s (handleFuncArg arg)).1
    exact ⟨hstate', congrArg _ hlocs'⟩

/-- Assigners for returned parts that do not look at their size. -/
theorem assignRets_agree (hsize : ∀ s p size, T.assignRet s { p with size } = T.assignRet s p)
    (parts : List PartTy)
    (extended : Option ℕ) :
      T.assignRets {} (CallBuilder.addRet parts) = T.assignRets {} (RetBuilder.add parts extended) := by
  match parts, extended with
  | [part], some size =>
    -- the only part of another size
    have h := hsize {} { bank := part.bank, size := part.size } size
    simp only [CallBuilder.addRet, RetBuilder.add, List.map_cons, List.map_nil, Convention.assignRets]
    rw [← h]
  | [], some size => rfl
  | _ :: _ :: _, some size => rfl
  | [], none => rfl
  | [_], none => rfl
  | _ :: _ :: _, none => rfl

/-- **A call and the function called agree** where each part of the arguments and of the
returned value is, on both targets. -/
theorem placements_agree (sig : Sig) (extended : Option ℕ) :
    callerPlacement x64 sig = calleePlacement x64 sig extended ∧
      callerPlacement a64 sig = calleePlacement a64 sig extended := by
  have hagree {σ : Type} (T : Convention σ) (hpointer : ∀ s {p q}, ResultPointer p q →
    SameStep T.assigner s p q)
      (hsize : ∀ s p size, T.assignRet s { p with size } = T.assignRet s p) :
      callerPlacement T sig = calleePlacement T sig extended := by
    obtain ⟨hstate, hlocs⟩ := assignArgs_agree hpointer sig.args T.assigner.init
    simp only [callerPlacement, calleePlacement, hstate, hlocs, assignRets_agree T hsize sig.ret extended]
  exact ⟨hagree x64 sysV_resultPointer fun _ _ _ => rfl, hagree a64 aapcs_resultPointer fun _ _ _ => rfl⟩

end Tpde.Target
