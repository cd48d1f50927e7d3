import Tpde.Llvm.FixupConstant
import Tpde.Llvm.PhiEntries

/-!
# Numbering the instructions of a function

`LLVMAdaptor::switch_func` goes over a function twice. The first pass replaces the constants of
phis, with instructions in the incoming blocks, and takes down the last phi of each block. The
second pass replaces the constants of all other instructions and numbers them
(`handle_inst_in_block`). Where it has inserted instructions, it goes back to the first one
that `fixup_constant` has returned, to number these as well.

The function is as it is once the uses of thread-local globals have been rewritten. `lower_type`
keeps what it has given a type, so that it is a function here. Whether all types are supported,
which is what `switch_func` returns, makes no difference to the numbers.
-/

namespace Tpde.Ir

open Llvm

/-! ### Constants of an instruction -/

/-- What becomes of the operands of an instruction. -/
structure Operands where
  operands : List Operand
  restartFrom : Option ℕ
  insts : List Inst
  next : ℕ

/-- The operands are replaced where they need it, one after the other, by `handle_inst_in_block`. -/
def fixupOperands (next : ℕ) : List Operand → Operands
  | [] => { operands := [], restartFrom := none, insts := [], next := next }
  | .const c :: ops =>
    if c.mightNeedFixup then
      let f := fixupConstant next c
      let r := fixupOperands f.next ops
      { operands := f.repl.getD (.const c) :: r.operands
        restartFrom := (f.repl.bind fun _ => f.insBegin) <|> r.restartFrom
        insts := f.insts ++ r.insts, next := r.next }
    else
      let r := fixupOperands next ops
      { r with operands := .const c :: r.operands }
  | op :: ops =>
    let r := fixupOperands next ops
    { r with operands := op :: r.operands }

theorem fixupConstant_plain {c : Const} (h : c.mightNeedFixup = false) (n : ℕ) :
    fixupConstant n c = ⟨none, none, [], n⟩ := by
  cases c with
  | expr op ty ops => cases h
  | vector s els => cases h
  | aggregate ty els => cases h
  | _ => rfl

theorem repl_bind_insBegin (n : ℕ) (c : Const) :
    ((fixupConstant n c).repl.bind fun _ => (fixupConstant n c).insBegin) = (fixupConstant n c).insBegin := by
  cases hrepl : (fixupConstant n c).repl with
  | some repl => rfl
  | none =>
    cases c with
    | aggregate ty els =>
      cases hr : Const.replacedAny els with
      | false =>
        rw [fixupConstant_kept hr]
        rfl
      | true =>
        rw [fixupConstant_aggregate hr] at hrepl
        cases hrepl
    | vector s els =>
      have := repl_isSome (.vector s els) n
      rw [hrepl] at this
      cases this
    | expr op ty ops => cases hrepl
    | _ => rfl

/-- The constants among operands. -/
def constsOf (ops : List Operand) : List Const :=
  ops.filterMap fun
    | .const c => some c
    | _ => none

/-- What happens to the operands is what happens to the constants among them. -/
theorem fixupOperands_eq (ops : List Operand) (n : ℕ) :
    (fixupOperands n ops).insts = (fixupAll n (constsOf ops)).insts ∧
      (fixupOperands n ops).restartFrom = (fixupAll n (constsOf ops)).insBegin ∧
      (fixupOperands n ops).next = (fixupAll n (constsOf ops)).next := by
  induction ops generalizing n with
  | nil => exact ⟨rfl, rfl, rfl⟩
  | cons o ops ih =>
    cases o with
    | const c =>
      show _ = (fixupAll n (c :: constsOf ops)).insts ∧ _ = (fixupAll n (c :: constsOf ops)).insBegin ∧
        _ = (fixupAll n (c :: constsOf ops)).next
      rw [fixupOperands]
      cases hc : c.mightNeedFixup with
      | true =>
        obtain ⟨h1, h2, h3⟩ := ih (fixupConstant n c).next
        rw [if_pos rfl, fixupAll]
        dsimp only
        rw [h1, h2, h3, repl_bind_insBegin]
        exact ⟨rfl, rfl, rfl⟩
      | false =>
        obtain ⟨h1, h2, h3⟩ := ih n
        rw [if_neg Bool.false_ne_true, fixupAll, fixupConstant_plain hc]
        exact ⟨h1, h2, h3⟩
    | _ => exact ih n

theorem fixupOperands_inert (ops : List Operand) (n : ℕ) :
    ∀ o ∈ (fixupOperands n ops).operands, o.inert = true := by
  induction ops generalizing n with
  | nil => exact nofun
  | cons o ops ih =>
    cases o with
    | const c =>
      rw [fixupOperands]
      cases hc : c.mightNeedFixup with
      | true =>
        rw [if_pos rfl]
        exact List.forall_mem_cons.mpr ⟨getD_inert c n, ih _⟩
      | false =>
        rw [if_neg Bool.false_ne_true]
        have hinert := getD_inert c n
        rw [fixupConstant_plain hc] at hinert
        exact List.forall_mem_cons.mpr ⟨hinert, ih n⟩
    | _ => exact List.forall_mem_cons.mpr ⟨rfl, ih n⟩

/-- What comes before the instruction that is returned needs nothing more. -/
theorem inert_before_all (cs : List Const) (n : ℕ) : ∃ pre post, (fixupAll n cs).insts = pre ++ post ∧
    (∀ i ∈ pre, i.inert = true) ∧ (fixupAll n cs).insBegin = post.head?.map Inst.id := by
  induction cs generalizing n with
  | nil => exact ⟨[], [], rfl, nofun, rfl⟩
  | cons c cs ih =>
    obtain ⟨pre, post, he, hp, hb⟩ := inert_before c n
    cases post with
    | nil =>
      obtain ⟨pre', post', he', hp', hb'⟩ := ih (fixupConstant n c).next
      refine ⟨pre ++ pre', post', by simp [fixupAll, he, he'], ?_, by simp [fixupAll, hb, hb']⟩
      exact List.forall_mem_append.mpr ⟨hp, hp'⟩
    | cons i post =>
      exact ⟨pre, i :: post ++ (fixupAll (fixupConstant n c).next cs).insts, by simp [fixupAll, he], hp,
        by simp [fixupAll, hb]⟩

/-- Where instructions are inserted, their visits are fewer than those that the constants count. -/
theorem sum_visits_all_lt (cs : List Const) (n : ℕ) :
    ((fixupAll n cs).insts.map Inst.visits).sum ≤ Const.visitsAll cs ∧
      ((fixupAll n cs).insts ≠ [] → ((fixupAll n cs).insts.map Inst.visits).sum < Const.visitsAll cs) := by
  induction cs generalizing n with
  | nil => exact ⟨le_rfl, fun h => absurd rfl h⟩
  | cons c cs ih =>
    obtain ⟨hle, hlt⟩ := ih (fixupConstant n c).next
    have hc := sum_visits_le c n
    rw [fixupAll, Const.visitsAll]
    dsimp only
    rw [List.map_append, List.sum_append]
    refine ⟨by omega, fun hne => ?_⟩
    cases hi : c.inserts with
    | true =>
      rw [hi, if_pos rfl] at hc
      omega
    | false =>
      rw [(insts_eq_nil c n).mpr hi, List.nil_append] at hne
      have := hlt hne
      omega

/-- The operands of an instruction, which the blocks before a phi have replaced already. -/
def Inst.fixup (next : ℕ) (i : Inst) : Operands :=
  if i.isPhi then { operands := i.operands, restartFrom := none, insts := [], next := next }
  else fixupOperands next i.operands

/-! ### The first pass -/

def Inst.isDebug (i : Inst) : Bool := i.op == .debug

/-- Where instructions are inserted into an incoming block: before the terminator, or before a comparison
in front of it (`getPrevNonDebugInstruction`), so that fusing can still happen. -/
def insBefore (b : Block) : ℕ :=
  let term := b.length - 1
  match (b.take term).zipIdx.reverse.find? fun x => !x.1.isDebug with
  | some (prev, k) => if prev.isCmp then k else term
  | none => term

def insertBefore (b : Block) (insts : List Inst) : Block :=
  b.take (insBefore b) ++ insts ++ b.drop (insBefore b)

/-- The blocks, the last phi of each block behind the first pass, and the next fresh id. -/
structure Prepass where
  blocks : List Block
  phiEnds : List (Option ℕ)
  next : ℕ

namespace Prepass

/-- An instruction, by the index of its block and its place there. -/
def inst? (p : Prepass) (blk pos : ℕ) : Option Inst := p.blocks[blk]?.bind fun b => b[pos]?

def modifyInst (p : Prepass) (blk pos : ℕ) (f : Inst → Inst) : Prepass :=
  { p with blocks := p.blocks.modify blk fun b => b.modify pos f }

/-- One incoming value of a phi. -/
def fixupIncoming (blk pos : ℕ) (p : Prepass) (k : ℕ) : Prepass :=
  match p.inst? blk pos with
  | none => p
  | some phi =>
    match phi.operands[k]?, phi.blocks[k]? with
    | some (.const c), some block =>
      if c.mightNeedFixup then
        let r := fixupConstant p.next c
        let p := { p with
          blocks := p.blocks.modify block fun b => insertBefore b r.insts
          next := r.next }
        match r.repl with
        | some repl => p.modifyInst blk pos (Inst.setIncomingValueForBlock block repl)
        | none => p
      else p
    | _, _ => p

end Prepass

/-- `sort_phi_entries`, where there are many. Blocks are sorted by their addresses. -/
def Inst.sortPhiEntries (addr : ℕ → ℕ) (i : Inst) : Inst :=
  let phi : PHINode ℕ (Operand × ℕ) i.operands.length :=
    { blocks := fun k => addr (i.blocks.getD k 0), values := fun k => (i.operands[k], i.blocks.getD k 0) }
  { i with
    operands := List.ofFn fun k => (phi.prepare.values k).1
    blocks := List.ofFn fun k => (phi.prepare.values k).2 }

namespace Prepass

/-- All incoming values of a phi. -/
def fixupPhi (addr : ℕ → ℕ) (blk : ℕ) (p : Prepass) (pos : ℕ) : Prepass :=
  let incoming := ((p.inst? blk pos).map fun phi => phi.operands.length).getD 0
  ((List.range incoming).foldl (fixupIncoming blk pos) p).modifyInst blk pos (Inst.sortPhiEntries addr)

/-- The phis of a block. None is inserted meanwhile, nor anything in front of one. -/
def fixupPhis (addr : ℕ → ℕ) (p : Prepass) (blk : ℕ) : Prepass :=
  let phis := (p.blocks.getD blk []).leadingPhis
  let p := (List.range phis.length).foldl (fixupPhi addr blk) p
  { p with phiEnds := p.phiEnds ++ [phis.getLast?.map Inst.id] }

end Prepass

/-- The first pass over all blocks. -/
def firstPass (addr : ℕ → ℕ) (f : Func) (next : ℕ) : Prepass :=
  (List.range f.blocks.length).foldl (Prepass.fixupPhis addr) ⟨f.blocks, [], next⟩

/-! ### The second pass -/

/-- What has an index: an argument or an instruction. -/
inductive ValueRef where
  | arg (i : ℕ)
  | inst (id : ℕ)
  deriving DecidableEq

variable {τ : Type*}

/-- `ValInfo`, with the value that has the index. -/
structure ValInfo (τ : Type*) where
  ref : ValueRef
  type : τ
  fused : Bool

/-- What the second pass builds. The index of a value is its place in `values`. -/
structure Numbering (τ : Type*) where
  values : List (ValInfo τ)
  initialStackSlotIndices : List ℕ
  funcHasDynamicAlloca : Bool
  next : ℕ

def Inst.isAlloca (i : Inst) : Bool :=
  match i.op with
  | .alloca .. => true
  | _ => false

/-- `is_static_alloca`: a larger alignment needs code. -/
def Inst.isFusedAlloca (inEntry : Bool) (i : Inst) : Bool :=
  match i.op with
  | .alloca align _ => i.isStaticAlloca inEntry && align ≤ 16
  | _ => false

namespace Numbering

/-- What is taken down of an instruction each time that it is handled. -/
def note (inEntry : Bool) (s : Numbering τ) (i : Inst) : Numbering τ :=
  { s with
    initialStackSlotIndices :=
      if i.isFusedAlloca inEntry then s.initialStackSlotIndices ++ [i.id] else s.initialStackSlotIndices
    funcHasDynamicAlloca :=
      s.funcHasDynamicAlloca || i.op == .invoke || (i.isAlloca && !i.isFusedAlloca inEntry) }

/-- The instruction gets the next index. -/
def push (lowerType : Ty → τ) (inEntry : Bool) (s : Numbering τ) (i : Inst) : Numbering τ :=
  { s with values := s.values ++ [⟨.inst i.id, lowerType i.ty, i.isFusedAlloca inEntry⟩] }

end Numbering

/-- What `handle_inst_in_block` does: the instruction with its operands replaced, the instructions inserted
before it, and the one to go back to. -/
structure Handled (τ : Type*) where
  inst : Inst
  insts : List Inst
  restartFrom : Option ℕ
  numbering : Numbering τ

/-- `handle_inst_in_block`. -/
def handleInstInBlock (lowerType : Ty → τ) (inEntry : Bool) (s : Numbering τ) (i : Inst) : Handled τ :=
  let r := i.fixup s.next
  let inst := { i with operands := r.operands }
  let s := { s with next := r.next }.note inEntry inst
  match r.restartFrom with
  | some id => ⟨inst, r.insts, some id, s⟩
  | none => ⟨inst, r.insts, none, s.push lowerType inEntry inst⟩

section

variable (lowerType : Ty → τ) (inEntry : Bool) (s : Numbering τ) (i : Inst)

@[simp] theorem handleInstInBlock_inst : (handleInstInBlock lowerType inEntry s i).inst =
    { i with operands := (i.fixup s.next).operands } := by
  rw [handleInstInBlock]
  split <;> rfl

@[simp] theorem handleInstInBlock_insts :
    (handleInstInBlock lowerType inEntry s i).insts = (i.fixup s.next).insts := by
  rw [handleInstInBlock]
  split <;> rfl

@[simp] theorem handleInstInBlock_restartFrom :
    (handleInstInBlock lowerType inEntry s i).restartFrom = (i.fixup s.next).restartFrom := by
  rw [handleInstInBlock]
  split
  all_goals
    rename_i hr
    exact hr.symm

@[simp] theorem handleInstInBlock_next :
    (handleInstInBlock lowerType inEntry s i).numbering.next = (i.fixup s.next).next := by
  rw [handleInstInBlock]
  split <;> rfl

end

/-- Going back takes fewer visits than the instruction itself. -/
theorem fixup_visits {i : Inst} {n id : ℕ} (h : (i.fixup n).restartFrom = some id) :
    (((i.fixup n).insts.dropWhile (·.id ≠ id)).map Inst.visits).sum +
      Inst.visits { i with operands := (i.fixup n).operands } < i.visits := by
  rw [Inst.fixup] at h ⊢
  cases hphi : i.isPhi with
  | true =>
    rw [hphi] at h
    cases h
  | false =>
    rw [hphi] at h
    simp only [Bool.false_eq_true, if_false] at h ⊢
    obtain ⟨hinsts, hrestart, -⟩ := fixupOperands_eq i.operands n
    have hinert : Inst.visits { i with operands := (fixupOperands n i.operands).operands } = 1 :=
      visits_of_inert (List.all_eq_true.mpr (fixupOperands_inert i.operands n))
    have hne : (fixupAll n (constsOf i.operands)).insts ≠ [] := by
      intro hnil
      rw [hrestart, insBegin_all_of_nil hnil] at h
      cases h
    have hdrop : (((fixupOperands n i.operands).insts.dropWhile (·.id ≠ id)).map Inst.visits).sum ≤
        ((fixupOperands n i.operands).insts.map Inst.visits).sum :=
      ((List.dropWhile_sublist _).map _).sum_le_sum fun _ _ => Nat.zero_le _
    have hlt := (sum_visits_all_lt (constsOf i.operands) n).2 hne
    have hconsts : i.consts = constsOf i.operands := rfl
    rw [hinsts] at hdrop
    rw [hinert, Inst.visits, hphi, if_neg Bool.false_ne_true, hinsts, hconsts]
    omega

/-- The second pass over a block, with the block afterwards: `it` goes on, or back to what was inserted. -/
def numberInsts (lowerType : Ty → τ) (inEntry : Bool) (s : Numbering τ) : Block → Block × Numbering τ
  | [] => ([], s)
  | i :: rest =>
    let h := handleInstInBlock lowerType inEntry s i
    match _hr : h.restartFrom with
    | none =>
      let (b, s) := numberInsts lowerType inEntry h.numbering rest
      (h.insts ++ h.inst :: b, s)
    | some id =>
      let (b, s) := numberInsts lowerType inEntry h.numbering
        (h.insts.dropWhile (·.id ≠ id) ++ h.inst :: rest)
      (h.insts.takeWhile (·.id ≠ id) ++ b, s)
termination_by b => (b.map Inst.visits).sum
decreasing_by
  · simp [Inst.visits]
  · have hlt := fixup_visits ((handleInstInBlock_restartFrom ..).symm.trans _hr)
    rw [handleInstInBlock_insts, handleInstInBlock_inst, List.map_append, List.sum_append, List.map_cons,
      List.map_cons, List.sum_cons, List.sum_cons]
    omega

/-- The second pass over blocks, the first of which may be the entry. -/
def numberBlocks (lowerType : Ty → τ) : Bool → Numbering τ → List Block → List Block × Numbering τ
  | _, s, [] => ([], s)
  | inEntry, s, b :: bs =>
    let (b, s) := numberInsts lowerType inEntry s b
    let (bs, s) := numberBlocks lowerType false s bs
    (b :: bs, s)

/-! ### The function afterwards -/

/-- A block up to the instruction with an id, and what is behind it. -/
def splitAfter (id : ℕ) : Block → Block × Block
  | [] => ([], [])
  | i :: b => if i.id = id then ([i], b) else ((i :: (splitAfter id b).1), (splitAfter id b).2)

/-- What `switch_func` leaves of a function: its blocks, the last phi of each, and its values. -/
structure Switched (τ : Type*) where
  blocks : List Block
  phiEnds : List (Option ℕ)
  numbering : Numbering τ

namespace Switched

/-- `block_phis`: up to `phi_end`, which is moved behind the last phi in the end, if there is one. -/
def blockPhis (r : Switched τ) (k : ℕ) : Block :=
  match (r.phiEnds[k]?).join with
  | some id => (splitAfter id (r.blocks.getD k [])).1
  | none => []

/-- `block_insts`. -/
def blockInsts (r : Switched τ) (k : ℕ) : Block :=
  match (r.phiEnds[k]?).join with
  | some id => (splitAfter id (r.blocks.getD k [])).2
  | none => r.blocks.getD k []

end Switched

/-- The indices of the arguments are the first. -/
def argValues (lowerType : Ty → τ) (args : List Ty) : List (ValInfo τ) :=
  args.zipIdx.map fun x => ⟨.arg x.2, lowerType x.1, false⟩

/-- The two passes of `switch_func` over a function. Blocks have addresses. -/
def switchFunc (lowerType : Ty → τ) (addr : ℕ → ℕ) (f : Func) (next : ℕ) : Switched τ :=
  let p := firstPass addr f next
  let (blocks, s) := numberBlocks lowerType true ⟨argValues lowerType f.args, [], false, p.next⟩ p.blocks
  ⟨blocks, p.phiEnds, s⟩

end Tpde.Ir
