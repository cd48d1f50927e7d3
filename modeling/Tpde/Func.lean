import Tpde.Cfg
import Tpde.Library.FlowGraph

/-!
# The values of a function, as an adaptor shows them

The part of the `IRAdaptor` concept that the liveness analysis reads: the
instructions and phis of the blocks, and what the adaptor says of a value. Over
it, liveness as it is usually defined: a value is live into a block when a use
is reached from the start of the block without passing the definition. The
incoming value of a phi is used at the end of the incoming block.
-/

namespace Tpde

open FlowGraph

/-- An instruction: `inst_results` and `inst_operands`. -/
structure Inst (V : Type) where
  results : List V
  operands : List V

/-- A phi with its slots: `incoming_block_for_slot` and `incoming_val_for_slot`. -/
structure PhiNode (B V : Type) where
  value : V
  incoming : List (B × V)

/-- The current function. -/
structure Func (B V : Type) extends Cfg B where
  /-- `cur_args()`. -/
  curArgs : List V
  /-- `block_phis(block)`. -/
  blockPhis : B → List (PhiNode B V)
  /-- `block_insts(block)`. -/
  blockInsts : B → List (Inst V)
  /-- `val_local_idx(value)`. -/
  valLocalIdx : V → ℕ
  /-- `val_ignore_in_liveness_analysis(value)`. -/
  valIgnore : V → Bool
  /-- `TPDE_LIVENESS_VISIT_ARGS`; otherwise the arguments are results in the entry. -/
  livenessVisitArgs : Bool

namespace Func

variable {B V : Type} (F : Func B V)

/-- Block `b` is reached from the entry. -/
def Reachable (b : B) : Prop := Reach F.Edge F.curEntryBlock b

/-- `v` is an argument or the result of an instruction, defined in `b`. -/
def InstDef (v : V) (b : B) : Prop :=
  (F.livenessVisitArgs = true ∧ v ∈ F.curArgs ∧ b = F.curEntryBlock) ∨ ∃ i ∈ F.blockInsts b, v ∈ i.results

/-- `v` is a phi of `b`. -/
def PhiDef (v : V) (b : B) : Prop := ∃ φ ∈ F.blockPhis b, φ.value = v

/-- `v` is defined in `b`. -/
def DefIn (v : V) (b : B) : Prop := F.InstDef v b ∨ F.PhiDef v b

/-- `v` is used in `b`, by an instruction or at the end by a phi of a successor. -/
def UseIn (v : V) (b : B) : Prop :=
  (∃ i ∈ F.blockInsts b, v ∈ i.operands) ∨ ∃ c, ∃ φ ∈ F.blockPhis c, (b, v) ∈ φ.incoming

/-- `v` is defined or used in `b`, or is a phi that comes from `b`. -/
def Occurs (v : V) (b : B) : Prop :=
  F.InstDef v b ∨ F.UseIn v b ∨ ∃ c, ∃ φ ∈ F.blockPhis c, φ.value = v ∧ ∃ w, (b, w) ∈ φ.incoming

/-- `v` is live into `b`: a use is reached from its start, without passing the definition. -/
inductive LiveIn (v : V) : B → Prop where
  | use {b : B} (hd : ¬ F.DefIn v b) (hu : F.UseIn v b) : LiveIn v b
  | succ {b c : B} (hd : ¬ F.DefIn v b) (he : F.Edge b c) (h : LiveIn v c) : LiveIn v b

/-- `v` is live out of `b`: a use is reached from its end, without passing the definition. -/
def LiveOut (v : V) (b : B) : Prop := ∃ c, F.Edge b c ∧ F.LiveIn v c

/-- `v` is live in `b`: defined, used, or live into or out of it. -/
def Live (v : V) (b : B) : Prop := F.DefIn v b ∨ F.UseIn v b ∨ F.LiveIn v b ∨ F.LiveOut v b

/-- The function is in SSA form, with phis that have slots for exactly the predecessors, and an
adaptor that tells its values apart. Nothing is asked of values that are ignored. -/
structure Ssa : Prop where
  valLocalIdx_inj : ∀ v w, F.valIgnore v = false → F.valIgnore w = false →
    F.valLocalIdx v = F.valLocalIdx w → v = w
  def_unique : ∀ v b c, F.valIgnore v = false → F.DefIn v b → F.DefIn v c → b = c
  exists_def : ∀ v u, F.valIgnore v = false → F.Reachable u → F.UseIn v u → ∃ d, F.DefIn v d
  dominates : ∀ v d u, F.valIgnore v = false → F.DefIn v d → F.Reachable u → F.UseIn v u →
    Dominates F.Edge F.curEntryBlock d u
  phi_entry : F.blockPhis F.curEntryBlock = []
  phi_slot : ∀ b, ∀ φ ∈ F.blockPhis b, ∀ p, F.Edge p b → ∃ v, (p, v) ∈ φ.incoming
  phi_pred : ∀ b, ∀ φ ∈ F.blockPhis b, ∀ s ∈ φ.incoming, F.Edge s.1 b

end Func

end Tpde
