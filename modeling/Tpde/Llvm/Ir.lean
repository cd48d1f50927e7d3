import Mathlib.Tactic

/-!
# The IR as the prepass sees it

Constants, instructions and functions of the source IR, as far as
`LLVMAdaptor::switch_func` tells them apart. An instruction has an `id` in place of its
address; a module hands out fresh ones. What an operation computes is not said here.
-/

namespace Tpde.Ir

/-- A scalar type. -/
inductive Scalar where
  | int (bits : ℕ)
  | half
  | bfloat
  | float
  | double
  | ptr
  | other (k : ℕ)
  deriving DecidableEq

/-- `ConstantDataSequential::isElementTypeCompatible`. -/
def Scalar.isElementTypeCompatible : Scalar → Bool
  | int bits => bits == 8 || bits == 16 || bits == 32 || bits == 64
  | half | bfloat | float | double => true
  | ptr | other _ => false

/-- A type. An array is an aggregate whose elements have one type. -/
inductive Ty where
  | void
  | scalar (s : Scalar)
  | vector (n : ℕ) (s : Scalar)
  | aggregate (els : List Ty)

/-- A value: the bits of a scalar, or the values of the elements. -/
inductive Value where
  | scalar (bits : ℕ)
  | seq (els : List Value)

/-- An operation without effects, as an instruction or a constant expression can have it. -/
inductive PureOp where
  | cmp (predicate : ℕ)
  | insertElement
  | insertValue (idx : ℕ)
  | other (k : ℕ)
  deriving DecidableEq

/-- What a constant is that is neither data, nor an expression, nor an aggregate, nor a global. -/
inductive Special where
  | blockAddress
  | dsoLocalEquivalent
  | noCFIValue
  | ptrAuth
  deriving DecidableEq

/-- A constant. -/
inductive Const where
  /-- `ConstantData` other than undef and poison. -/
  | data (ty : Ty) (v : Value)
  /-- `UndefValue` or `PoisonValue`. -/
  | undef (ty : Ty)
  /-- `GlobalValue`. -/
  | global (g : ℕ)
  | special (kind : Special) (k : ℕ)
  /-- `ConstantExpr`. -/
  | expr (op : PureOp) (ty : Ty) (ops : List Const)
  /-- `ConstantVector`. -/
  | vector (s : Scalar) (els : List Const)
  /-- `ConstantStruct` or `ConstantArray`. -/
  | aggregate (ty : Ty) (els : List Const)

namespace Const

/-- Proves something of every constant and every list of constants. -/
theorem induction_on {p : Const → Prop} {q : List Const → Prop} (data : ∀ ty v, p (.data ty v))
    (undef : ∀ ty, p (.undef ty)) (global : ∀ g, p (.global g)) (special : ∀ kind k, p (.special kind k))
    (expr : ∀ op ty ops, q ops → p (.expr op ty ops)) (vector : ∀ s els, q els → p (.vector s els))
    (aggregate : ∀ ty els, q els → p (.aggregate ty els)) (nil : q [])
    (cons : ∀ c cs, p c → q cs → q (c :: cs)) (c : Const) : p c :=
  Const.rec (motive_1 := p) (motive_2 := q) data undef global special expr vector aggregate nil cons c

/-- Proves something of every constant from its parts. -/
theorem induction_parts {p : Const → Prop} (data : ∀ ty v, p (.data ty v)) (undef : ∀ ty, p (.undef ty))
    (global : ∀ g, p (.global g)) (special : ∀ kind k, p (.special kind k))
    (expr : ∀ op ty ops, (∀ c ∈ ops, p c) → p (.expr op ty ops))
    (vector : ∀ s els, (∀ c ∈ els, p c) → p (.vector s els))
    (aggregate : ∀ ty els, (∀ c ∈ els, p c) → p (.aggregate ty els)) (c : Const) : p c := by
  induction c using induction_on (q := fun cs => ∀ c ∈ cs, p c) with
  | data ty v => exact data ty v
  | undef ty => exact undef ty
  | global g => exact global g
  | special kind k => exact special kind k
  | expr op ty ops ih => exact expr op ty ops ih
  | vector s els ih => exact vector s els ih
  | aggregate ty els ih => exact aggregate ty els ih
  | nil c hc => exact absurd hc List.not_mem_nil
  | cons c cs ih ihs d hd =>
    cases hd with
    | head => exact ih
    | tail _ hd => exact ihs d hd

/-- `value_might_need_fixup`, of a constant. -/
def mightNeedFixup : Const → Bool
  | data .. | undef _ | global _ => false
  | special kind _ => kind != .blockAddress
  | expr .. | vector .. | aggregate .. => true

/-- An element of a vector that needs no instruction: data, undef or poison. -/
def isFixedElement : Const → Bool
  | data .. | undef _ => true
  | _ => false

/-- `Constant::getNullValue` of a scalar type. -/
def nullValue (s : Scalar) : Const := .data (.scalar s) (.scalar 0)

/-- The value of constant data. -/
def dataValue : Const → Value
  | data _ v => v
  | _ => .scalar 0

/-- Constant data that is zero. -/
def isNull : Const → Bool
  | data _ (.scalar 0) => true
  | _ => false

/-- `ConstantVector::get`, of scalar data: a `ConstantAggregateZero` or a `ConstantDataVector` where
these can hold it. -/
def vectorGet (s : Scalar) (els : List Const) : Const :=
  if els.all isNull || s.isElementTypeCompatible then
    .data (.vector els.length s) (.seq (els.map dataValue))
  else .vector s els

mutual
/-- No constant expression in it. -/
def clean : Const → Bool
  | expr .. => false
  | vector _ els => cleanAll els
  | aggregate _ els => cleanAll els
  | _ => true
def cleanAll : List Const → Bool
  | [] => true
  | c :: cs => clean c && cleanAll cs
end

theorem cleanAll_iff {cs : List Const} : cleanAll cs = true ↔ ∀ c ∈ cs, c.clean = true := by
  induction cs with
  | nil => simp [cleanAll]
  | cons c cs ih => simp [cleanAll, ih]

mutual
/-- The global occurs in it, itself or in a part. -/
def mentions (g : ℕ) : Const → Bool
  | global g' => g == g'
  | expr _ _ ops => mentionsAny g ops
  | vector _ els => mentionsAny g els
  | aggregate _ els => mentionsAny g els
  | _ => false
def mentionsAny (g : ℕ) : List Const → Bool
  | [] => false
  | c :: cs => mentions g c || mentionsAny g cs
end

end Const

/-- An operand. -/
inductive Operand where
  | const (c : Const)
  | arg (i : ℕ)
  | inst (id : ℕ)
  /-- A block, metadata or inline assembly. -/
  | other (k : ℕ)

namespace Operand

/-- The operand is the global itself. -/
def isGlobal (g : ℕ) : Operand → Bool
  | const (.global g') => g == g'
  | _ => false

/-- The operand is a constant, other than the global itself, that the global occurs in. -/
def usesInside (g : ℕ) : Operand → Bool
  | const (.global _) => false
  | const c => c.mentions g
  | _ => false

/-- No constant expression in it. -/
def clean : Operand → Bool
  | const c => c.clean
  | _ => true

/-- The instructions it names have ids below `n`. -/
def below (n : ℕ) : Operand → Bool
  | inst id => id < n
  | _ => true

end Operand

/-- What an instruction does. -/
inductive Opcode where
  | phi
  | pure (op : PureOp)
  /-- The intrinsic `llvm.threadlocal.address`. -/
  | threadLocalAddress
  | alloca (align : ℕ) (inalloca : Bool)
  | invoke
  /-- A debug intrinsic. -/
  | debug
  /-- Any other instruction: memory, calls. -/
  | effect (k : ℕ)
  /-- Any other terminator. -/
  | terminator (k : ℕ)
  deriving DecidableEq

/-- An instruction. -/
structure Inst where
  id : ℕ
  op : Opcode
  ty : Ty
  operands : List Operand
  /-- The incoming blocks of a phi, slot by slot; the successors of a terminator. -/
  blocks : List ℕ

namespace Inst

def isPhi (i : Inst) : Bool := i.op == .phi

def isCmp (i : Inst) : Bool :=
  match i.op with
  | .pure (.cmp _) => true
  | _ => false

def isTerminator (i : Inst) : Bool :=
  match i.op with
  | .invoke | .terminator _ => true
  | _ => false

/-- `isStaticAlloca`: in the entry block, with a size that is a number. -/
def isStaticAlloca (inEntry : Bool) (i : Inst) : Bool :=
  match i.op, i.operands with
  | .alloca _ inalloca, [.const (.data ..)] => inEntry && !inalloca
  | _, _ => false

/-- The incoming values of `block` become `v`: `setIncomingValueForBlock`. -/
def setIncomingValueForBlock (block : ℕ) (v : Operand) (i : Inst) : Inst :=
  { i with operands := i.operands.zipWith (fun o b => if b = block then v else o) i.blocks }

@[simp] theorem id_setIncoming (b : ℕ) (v : Operand) (i : Inst) :
    (i.setIncomingValueForBlock b v).id = i.id :=
  rfl

@[simp] theorem op_setIncoming (b : ℕ) (v : Operand) (i : Inst) :
    (i.setIncomingValueForBlock b v).op = i.op :=
  rfl

@[simp] theorem ty_setIncoming (b : ℕ) (v : Operand) (i : Inst) :
    (i.setIncomingValueForBlock b v).ty = i.ty :=
  rfl

@[simp] theorem blocks_setIncoming (b : ℕ) (v : Operand) (i : Inst) :
    (i.setIncomingValueForBlock b v).blocks = i.blocks :=
  rfl

@[simp] theorem isPhi_setIncoming (b : ℕ) (v : Operand) (i : Inst) :
    (i.setIncomingValueForBlock b v).isPhi = i.isPhi :=
  rfl

/-- There is one value for a block, however many edges come from it. -/
def MultiEdge (i : Inst) : Prop :=
  ∀ j k : ℕ, i.blocks[j]? = i.blocks[k]? → j < i.blocks.length → i.operands[j]? = i.operands[k]?

end Inst

/-- A basic block. -/
abbrev Block := List Inst

/-- No phi behind another instruction. -/
def Block.PhisFirst (b : Block) : Prop := b.Pairwise fun i j => j.isPhi = true → i.isPhi = true

instance (b : Block) : Decidable b.PhisFirst := inferInstanceAs (Decidable (List.Pairwise _ _))

/-- The phis that a block begins with. -/
def Block.leadingPhis (b : Block) : Block := b.takeWhile Inst.isPhi

/-- A function: its arguments, its return type and its blocks, the entry first. -/
structure Func where
  args : List Ty
  retTy : Ty
  blocks : List Block

namespace Func

/-- The instructions in block order. -/
def insts (f : Func) : List Inst := f.blocks.flatten

end Func

/-- A module. -/
structure Module where
  funcs : List Func
  /-- Variables, aliases and functions, in the order they are looked at; which are thread-local. -/
  globals : List (ℕ × Bool)
  /-- The globals that an initializer or an alias uses. -/
  initUses : List ℕ
  /-- The next fresh id. -/
  next : ℕ

namespace Module

/-- The instructions of all functions. -/
def insts (m : Module) : List Inst := m.funcs.flatMap Func.insts

end Module

/-- What the verifier of the IR guarantees of a function, apart from the places of its phis. -/
structure Func.WellFormed (f : Func) (next : ℕ) : Prop where
  nodup : (f.insts.map Inst.id).Nodup
  id_lt : ∀ i ∈ f.insts, i.id < next
  operand_lt : ∀ i ∈ f.insts, ∀ o ∈ i.operands, o.below next = true
  terminated : ∀ b ∈ f.blocks, ∃ body t, b = body ++ [t] ∧ t.isTerminator = true ∧
    ∀ i ∈ body, i.isTerminator = false
  slots : ∀ i ∈ f.insts, i.isPhi = true → i.operands.length = i.blocks.length
  incoming_lt : ∀ i ∈ f.insts, i.isPhi = true → ∀ b ∈ i.blocks, b < f.blocks.length
  multi_edge : ∀ b ∈ f.blocks, ∀ i ∈ b.leadingPhis, i.MultiEdge

end Tpde.Ir
