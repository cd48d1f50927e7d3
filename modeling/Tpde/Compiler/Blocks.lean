import Tpde.Compiler.ValueInv

/-!
# Compiling blocks

The blocks of a function are compiled in the order of their layout, with one state of the
registers and assignments that goes from a block to the next one in that order, not along
the edges of the control flow. `spill_before_branch` therefore stores what blocks farther
away may need, and says which registers the next block must not rely on;
`release_spilled_regs` frees them. In between, values are moved to the phis of the
successors.

What the instructions of a block do to the values is a list of events: a register is
evicted, a value loaded, a result written, an assignment freed.
-/

namespace Tpde.Values

open RegMachine

/-- What compiling an instruction does to the values. -/
inductive Event where
  | evict (r : Reg)
  | load (v : Val)
  | define (v : Val) (op : Op)
  | free (v : Val)
  deriving DecidableEq, Repr

/-- The blocks by their indices in the layout, as the adaptor and the analyzer describe
them, and where the references of a value end. -/
structure Flow where
  succs : ℕ → List ℕ
  multipleIncoming : ℕ → Bool
  phis : ℕ → List Val
  incoming : ℕ → Val → Option Val
  events : ℕ → List Event
  moveFrees : ℕ → Val → List Val
  delayedFrees : ℕ → List Val
  last : Val → ℕ
  lastFull : Val → Bool
  refCount : Val → ℕ
  bits : Val → ℕ
  fixedReg : Val → St → Option Reg

namespace St

/-- `free_reg`. -/
def freeReg (s : St) (r : Reg) : Except Stop St :=
  match s.used r with
  | some (some v) =>
    match s.val v with
    | some a =>
      if s.locks r = 0 ∧ a.reg = some r ∧ (a.stackValid || a.variableRef) then
        (s.setVal v { a with reg := none }).unmarkUsed r
      else .error .assertion
    | none => .error .assertion
  | _ => .error .assertion

/-- Frees registers that are used and not locked. -/
def freeRegs (s : St) (regs : List Reg) : Except Stop St :=
  (regs.filter fun r => s.used r ≠ none).foldlM (fun s r => if s.locks r = 0 then s.freeReg r else .ok s) s

/-- `free_assignment` of a value by its index. -/
def free (s : St) (v : Val) : Except Stop St :=
  match s.val v with
  | some a => s.freeAssignment v a
  | none => .error .assertion

end St

/-- What `spill_before_branch` reads off the successors of a block: whether the next block
is one, whether that one has several edges into it, how many there are, and the earliest
one after the next block. -/
structure Succs where
  nextIsSucc : Bool := false
  nextMultiple : Bool := false
  count : ℕ := 0
  earliest : Option ℕ := none
  deriving DecidableEq, Repr

namespace Flow

variable (F : Flow) (c : Config)

/-- `init_assignment`, with a fixed register if one is selected and it is free. -/
def initAssignment (s : St) (v : Val) : Except Stop St :=
  if s.val v ≠ none then .error .assertion
  else
    let a : Assignment :=
      { bits := F.bits v, reg := none, stackValid := false, fixed := false, variableRef := false,
        stackVariable := false
        frameOff := 0, delayFree := F.lastFull v, pendingFree := false, refs := F.refCount v }
    match F.fixedReg v s with
    | some r =>
      if s.fixedCount < 5 ∧ s.used r = none then do
        let s ← (← s.markUsed r (some v)).incLockCount r
        return { s with val := Function.update s.val v (some { a with reg := some r, fixed := true })
                        fixedCount := s.fixedCount + 1 }
      else .ok (s.setVal v a)
    | none => .ok (s.setVal v a)

/-- What an event does. A result gets its register and is written there. -/
def event (s : St) : Event → Except Stop St
  | .evict r => s.evictReg r
  | .load v => do
    let (_, p, s) ← c.loadToReg s (.value v false none)
    s.resetPart p
  | .define v op => do
    let s ← F.initAssignment s v
    match s.val v with
    | none => .error .assertion
    | some a =>
      match a.reg with
      | some r => return s.emit (.set r op)
      | none => do
        let (r, s) ← c.selectReg s
        let s ← s.markUsed r (some v)
        return (s.setVal v { a with reg := some r }).emit (.set r op)
  | .free v => s.free v

/-- The events of a block. -/
def body (s : St) (cur : ℕ) : Except Stop St := (F.events cur).foldlM (F.event c) s

/-- One more successor of a block. -/
def scanSucc (cur : ℕ) (i : Succs) (succ : ℕ) : Succs :=
  let i := { i with count := i.count + 1 }
  if succ = cur + 1 then
    { i with nextIsSucc := true, nextMultiple := i.nextMultiple || F.multipleIncoming succ }
  else if cur < succ ∧ i.earliest.all (succ < ·) then { i with earliest := some succ }
  else i

/-- The successors of a block. -/
def scanSuccs (cur : ℕ) : Succs := (F.succs cur).foldl (F.scanSucc cur) {}

/-- The registers that the next block must not rely on, or only those that are spilled. -/
def mustSpill (cur : ℕ) : Bool := !(F.scanSuccs cur).nextIsSucc || (F.scanSuccs cur).nextMultiple

/-- Whether the value of a part is needed in memory. -/
def needsSpill (cur : ℕ) (v : Val) (a : Assignment) : Bool :=
  if a.stackValid || a.variableRef then false
  else if F.last v ≤ cur then false
  else F.mustSpill cur || (F.scanSuccs cur).earliest.any (· ≤ F.last v)

/-- What `spill_before_branch` does with a used register. -/
def spillReg (cur : ℕ) (i : List Reg × St) (r : Reg) : List Reg × St :=
  match i.2.used r with
  | some (some v) =>
    match i.2.val v with
    | some a =>
      if a.fixed then i
      else (if F.mustSpill cur then i.1 ++ [r] else i.1, if F.needsSpill cur v a then i.2.spill v a r
        else i.2)
    | none => i
  | _ => i

/-- `spill_before_branch`: the registers to release after the branch. -/
def spillBeforeBranch (s : St) (cur : ℕ) : List Reg × St :=
  if (F.scanSuccs cur).count = 1 ∧ F.mustSpill cur = false then ([], s)
  else (c.arch.allocatable.filter fun r => s.used r ≠ none).foldl (F.spillReg cur) ([], s)

/-- What `move_to_phi` does to the assignments, with that of the phi behind the move: the phi
is in its stack slot, unless it is fixed or its own value. -/
def moveToPhi (cur : ℕ) (s : St) (phi : Val) : Except Stop (Assignment × St) := do
  let s ← (if s.val phi = none then F.initAssignment s phi else .ok s)
  match s.val phi with
  | none => .error .assertion
  | some a =>
    if F.incoming cur phi = some phi ∨ a.fixed then return (a, s)
    else if a.variableRef then .error .assertion
    else return ({ a with stackValid := true }, s.setVal phi { a with stackValid := true })

/-- The moves to some phis, each with the values that it read last. -/
def moveToPhis (cur : ℕ) (s : St) : List Val → Except Stop (List (Val × Assignment) × St)
  | [] => .ok ([], s)
  | phi :: phis => do
    let (a, s) ← F.moveToPhi cur s phi
    let s ← (F.moveFrees cur phi).foldlM St.free s
    let (homes, s) ← moveToPhis cur s phis
    return ((phi, a) :: homes, s)

/-- The phis that the branches of a block move to. -/
def targets (cur : ℕ) : List Val := (F.succs cur).flatMap F.phis

/-- The end of a block: a branch to its successors, or a return. -/
def terminator (s : St) (cur : ℕ) : Except Stop St :=
  if F.succs cur = [] then s.freeRegs c.arch.allocatable
  else do
    let (spilled, s) := F.spillBeforeBranch c s cur
    let (_, s) ← F.moveToPhis cur s (F.targets cur)
    s.freeRegs spilled

/-- `compile_block`. -/
def compileBlock (s : St) (cur : ℕ) : Except Stop St := do
  (F.delayedFrees cur).foldlM St.free (← F.terminator c (← F.body c s cur) cur)

/-- The state before a block. -/
def start (s : St) : ℕ → Except Stop St
  | 0 => .ok s
  | cur + 1 => do F.compileBlock c (← start s cur) cur

end Flow

/-! ### Running the code -/

/-- What each value is: a result is what its instruction wrote. -/
def Event.ghost (ev : Event) (s : St) (m : Machine Val) (σ : Val → Word) : Val → Word :=
  match ev with
  | .define v _ =>
    match s.regOf v with
    | some r => Function.update σ v (m.reg r)
    | none => σ
  | _ => σ

namespace Flow

variable (F : Flow) (c : Config)

/-- The code of some events runs. -/
def runEvents (s : St) (m : Machine Val) (σ : Val → Word) : List Event →
    Except Stop (St × Machine Val × (Val → Word))
  | [] => .ok (s, m, σ)
  | ev :: evs => do
    let s' ← F.event c s ev
    runEvents s' (s.after s' m) (ev.ghost s' (s.after s' m) σ) evs

/-- The phis that the moves of an edge write. -/
def moved (cur t : ℕ) : List Val := (F.phis t).filter fun phi => F.incoming cur phi ≠ some phi

end Flow

/-- The moves to some phis run: they write the `homes` of these, and no register that is in
use besides, as a scratch register for the moves is a free one. `s` is the state behind the
moves. -/
structure Moves (arch : Arch) (s : St) (homes : List (Val × Assignment)) (phis : List Val)
    (m m' : Machine Val)
    (σ σ' : Val → Word) : Prop where
  addr : m'.addr = m.addr
  framePtr : m'.reg arch.framePtr = m.reg arch.framePtr
  reg : ∀ r, s.used r ≠ none → (∀ h ∈ homes, h.1 ∈ phis → h.2.fixed → h.2.reg ≠ some r) → m'.reg r = m.reg r
  slot : ∀ v, v ∉ phis → m'.slot v = m.slot v
  same : ∀ v, v ∉ phis → σ' v = σ v
  fixed : ∀ h ∈ homes, h.1 ∈ phis → h.2.fixed → ∀ r, h.2.reg = some r → Agree h.2.bits (m'.reg r) (σ' h.1)
  stack : ∀ h ∈ homes, h.1 ∈ phis → h.2.fixed = false → Agree h.2.bits (m'.slot h.1) (σ' h.1)

/-- The code of block `cur` runs, and branches to `t`. -/
structure Flow.Edge (F : Flow) (c : Config) (s : St) (cur t : ℕ) (m m' : Machine Val)
    (σ σ' : Val → Word) : Prop where
  succ : t ∈ F.succs cur
  run : ∃ s₁ m₁ σ₁ homes s₂, F.runEvents c s m σ (F.events cur) = .ok (s₁, m₁, σ₁) ∧
    F.moveToPhis cur (F.spillBeforeBranch c s₁ cur).2 (F.targets cur) = .ok (homes, s₂) ∧
    Moves c.arch s₂ homes (F.moved cur t) (s₁.after (F.spillBeforeBranch c s₁ cur).2 m₁) m' σ₁ σ'

/-- The runs of the function: the block that is entered, the machine and what the values are. -/
inductive Flow.Reaches (F : Flow) (c : Config) (s₀ : St) (m₀ : Machine Val) (σ₀ : Val → Word) :
    ℕ → Machine Val → (Val → Word) → Prop
  | entry : F.Reaches c s₀ m₀ σ₀ 0 m₀ σ₀
  | edge {cur t : ℕ} {s : St} {m m' : Machine Val} {σ σ' : Val → Word} (h : F.Reaches c s₀ m₀ σ₀ cur m σ)
      (hs : F.start c s₀ cur = .ok s) (he : F.Edge c s cur t m m' σ σ') : F.Reaches c s₀ m₀ σ₀ t m' σ'

end Tpde.Values
