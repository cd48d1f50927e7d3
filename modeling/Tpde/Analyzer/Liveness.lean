import Tpde.Analyzer.LiveRange
import Tpde.Func

/-!
# Live intervals

`Analyzer::compute_liveness`: every definition and use is visited once, in the
order of the layout, and the interval of the value is extended by what is
visited, or by the loop around it that lies right inside the lowest common loop
of everything visited so far.
-/

namespace Tpde.Analyzer

open FlowGraph PointerForest Relation

/-! ### The model -/

/-- `LivenessInfo`. The source counts the references in a `u32` and asserts that it is not the largest
one, which marks a definition: here it has no bound, which is the same for up to 2^32 - 2 uses of a
value. -/
structure LivenessInfo where
  first : ℕ
  last : ℕ
  refCount : ℕ
  lowestCommonLoop : ℕ
  lastFull : Bool
  epoch : ℕ
  deriving DecidableEq, Repr

namespace LivenessInfo

/-- An entry of the vector that has not been written. -/
def empty : LivenessInfo := ⟨0, 0, 0, 0, false, 0⟩

/-- `update_for_block_only`. -/
def updateForBlockOnly (i : LivenessInfo) (blockIdx : ℕ) : LivenessInfo :=
  let newFirst := min i.first blockIdx
  let newLast := max i.last blockIdx
  { i with first := newFirst, last := newLast, lastFull := if i.last = newLast then i.lastFull else false }

/-- `update_for_loop`, for a loop with the given range. -/
def updateForLoop (i : LivenessInfo) (loopBegin loopEnd : ℕ) : LivenessInfo :=
  let newFirst := min i.first loopBegin
  let newLast := max i.last (loopEnd - 1)
  { i with first := newFirst, last := newLast, lastFull := if i.last = newLast then i.lastFull else true }

/-- `++ref_count`. -/
def addRef (i : LivenessInfo) : LivenessInfo := { i with refCount := i.refCount + 1 }

/-- `lowest_common_loop = loop`. -/
def setLoop (i : LivenessInfo) (loop : ℕ) : LivenessInfo := { i with lowestCommonLoop := loop }

end LivenessInfo

namespace LoopTable

/-- `static_cast<u32>(loop.begin)`. -/
def beginOf (l : LoopTable) (loop : ℕ) : ℕ := (l.beginIdx loop).getD 0xFFFFFFFF

/-- `while (cur_level != target_level)`: up from a loop of the given level. -/
def targetLoop (l : LoopTable) (targetLevel : ℕ) : ℕ → ℕ → ℕ
  | 0, loop => loop
  | level + 1, loop => if level + 1 = targetLevel then loop
    else targetLoop l targetLevel level (l.parent loop)

end LoopTable

/-- The variables of the search for the common loop. -/
structure LoopSearch where
  lhs : ℕ
  rhs : ℕ
  prevLhs : ℕ
  prevRhs : ℕ

/-- One round of `while (lhs_idx != rhs_idx)`. -/
def LoopSearch.step (l : LoopTable) (s : LoopSearch) : LoopSearch :=
  if l.level s.lhs > l.level s.rhs then
    { s with prevLhs := s.lhs, lhs := l.parent s.lhs }
  else if l.level s.lhs < l.level s.rhs then
    { s with prevRhs := s.rhs, rhs := l.parent s.rhs }
  else { lhs := l.parent s.lhs, rhs := l.parent s.rhs, prevLhs := s.lhs, prevRhs := s.rhs }

/-- The search, for as many rounds as there are levels. -/
def commonLoop (l : LoopTable) (lcl blockLoop : ℕ) : LoopSearch :=
  While.run (fun s => s.lhs != s.rhs) (LoopSearch.step l) (l.level lcl + l.level blockLoop)
    ⟨lcl, blockLoop, lcl, blockLoop⟩

/-- The body of `visit`, for a value that is not ignored. -/
def visitInfo (l : LoopTable) (blockLoopMap : ℕ → ℕ) (epoch : ℕ) (i : LivenessInfo) (blockIdx : ℕ) :
    LivenessInfo :=
  let blockLoop := blockLoopMap blockIdx
  if i.epoch ≠ epoch then ⟨blockIdx, blockIdx, 1, blockLoop, false, epoch⟩
  else
    let i := i.addRef
    let lcl := i.lowestCommonLoop
    if lcl = blockLoop then i.updateForBlockOnly blockIdx
    else if l.level lcl < l.level blockLoop ∧ l.beginOf blockLoop < l.endIdx lcl then
      let target := l.targetLoop (l.level lcl + 1) (l.level blockLoop) blockLoop
      i.updateForLoop (l.beginOf target) (l.endIdx target)
    else
      let s := commonLoop l lcl blockLoop
      let i := (i.setLoop s.lhs).updateForLoop (l.beginOf s.prevLhs) (l.endIdx s.prevLhs)
      if s.lhs = blockLoop then i.updateForBlockOnly blockIdx
      else i.updateForLoop (l.beginOf s.prevRhs) (l.endIdx s.prevRhs)

/-- The liveness vector and its epoch, a `u16`. No entry is from a later epoch. -/
structure LivenessTable where
  liveness : ℕ → LivenessInfo
  epoch : ℕ
  epoch_lt : epoch < 2 ^ 16
  le_epoch : ∀ i, (liveness i).epoch ≤ epoch

/-- Before the first function. -/
def LivenessTable.init : LivenessTable := ⟨fun _ => .empty, 0, by decide, fun _ => le_rfl⟩

/-- `++liveness_epoch`, with the entries cleared on overflow. -/
def LivenessTable.bump (t : LivenessTable) : LivenessTable :=
  if h : t.epoch + 1 < 2 ^ 16 then
    ⟨t.liveness, t.epoch + 1, h, fun i => (t.le_epoch i).trans (Nat.le_succ _)⟩
  else ⟨fun _ => .empty, 1, by decide, fun _ => Nat.zero_le 1⟩

/-- What the loop over the blocks changes: the liveness vector, the definitions of each loop, the
number of instructions, and the flags of the blocks. -/
structure LiveState (B : Type) where
  liveness : ℕ → LivenessInfo
  definitions : ℕ → ℕ
  numInsts : ℕ
  blockInfo2 : B → BlockInfo2

section
variable {B V : Type} [DecidableEq B] (F : Func B V) (L : BlockLayout B) (epoch : ℕ)

/-- `visit`, on the liveness vector. -/
def visitVec (f : ℕ → LivenessInfo) (v : V) (blockIdx : ℕ) : ℕ → LivenessInfo :=
  if F.valIgnore v then f
  else Function.update f (F.valLocalIdx v)
    (visitInfo L.loops L.blockLoopMap epoch (f (F.valLocalIdx v)) blockIdx)

/-- `visit`. -/
def LiveState.visit (s : LiveState B) (v : V) (blockIdx : ℕ) : LiveState B :=
  { s with liveness := visitVec F L epoch s.liveness v blockIdx }

/-- A slot of a phi: the incoming value and the phi are used in the incoming block, if it is reachable. -/
def visitSlot (phi : V) (s : LiveState B) (slot : B × V) : LiveState B :=
  if s.blockInfo2 slot.1 = .zero then s
  else (s.visit F L epoch slot.2 (L.blockInfo slot.1)).visit F L epoch phi (L.blockInfo slot.1)

/-- A phi. -/
def visitPhi (s : LiveState B) (phi : PhiNode B V) : LiveState B :=
  phi.incoming.foldl (visitSlot F L epoch phi.value) s

/-- `block_set_info2(block, block_info2(block) | 0b1'0000)`. -/
def LiveState.markHasPhis (s : LiveState B) (b : B) : LiveState B :=
  { s with blockInfo2 := Function.update s.blockInfo2 b { s.blockInfo2 b with hasPhis := true } }

/-- A result of an instruction. -/
def visitResult (blockIdx : ℕ) (s : LiveState B) (v : V) : LiveState B :=
  let s := s.visit F L epoch v blockIdx
  let loop := L.blockLoopMap blockIdx
  { s with definitions := Function.update s.definitions loop (s.definitions loop + 1) }

/-- An instruction. -/
def visitInst (blockIdx : ℕ) (s : LiveState B) (inst : Inst V) : LiveState B :=
  let s := inst.results.foldl (visitResult F L epoch blockIdx) s
  let s := inst.operands.foldl (fun s v => s.visit F L epoch v blockIdx) s
  { s with numInsts := s.numInsts + 1 }

/-- One round of the loop over the blocks. -/
def visitBlock (s : LiveState B) (block : B × ℕ) : LiveState B :=
  let phis := F.blockPhis block.1
  let s := phis.foldl (visitPhi F L epoch) s
  let s := if phis.isEmpty then s else s.markHasPhis block.1
  (F.blockInsts block.1).foldl (visitInst F L epoch block.2) s

/-- The arguments and the loop over the blocks. -/
def liveLoop (liveness : ℕ → LivenessInfo) : LiveState B :=
  let s : LiveState B := ⟨liveness, fun _ => 0, 0, L.blockInfo2⟩
  let s := if F.livenessVisitArgs then F.curArgs.foldl (fun s v => s.visit F L epoch v 0) s else s
  L.blockLayout.zipIdx.foldl (visitBlock F L epoch) s

end

/-- `definitions_in_childs`, from loop `i` down to loop 1. -/
def definitionsInChilds (l : LoopTable) (definitions : ℕ → ℕ) : ℕ → (ℕ → ℕ) → ℕ → ℕ
  | 0, inChilds => inChilds
  | i + 1, inChilds =>
    definitionsInChilds l definitions i (Function.update inChilds (l.parent (i + 1))
      (inChilds (l.parent (i + 1)) + inChilds (i + 1) + definitions (i + 1)))

/-- What the analyzer knows of the current function. -/
structure Analysis (B : Type) where
  layout : BlockLayout B
  table : LivenessTable
  definitions : ℕ → ℕ
  inChilds : ℕ → ℕ
  numInsts : ℕ

theorem epoch_visitInfo (l : LoopTable) (m : ℕ → ℕ) (epoch : ℕ) (i : LivenessInfo) (p : ℕ) :
    (visitInfo l m epoch i p).epoch = epoch := by
  by_cases h : i.epoch = epoch
  · unfold visitInfo
    rw [if_neg (not_not.mpr h)]
    dsimp only
    split_ifs <;> exact h
  · unfold visitInfo
    rw [if_pos h]

section
variable {B V : Type} [DecidableEq B] (F : Func B V)

/-- What the visits keep is kept by the whole loop. -/
theorem liveLoop_keeps (L : BlockLayout B) (epoch : ℕ) (P : (ℕ → LivenessInfo) → Prop)
    (hvisit : ∀ f v p, P f → P (visitVec F L epoch f v p)) (f : ℕ → LivenessInfo) (h : P f) :
    P (liveLoop F L epoch f).liveness := by
  let Q : LiveState B → Prop := fun s => P s.liveness
  have hv : ∀ (s : LiveState B) v p, Q s → Q (s.visit F L epoch v p) := fun s v p hs => hvisit _ v p hs
  have hphi : ∀ (s : LiveState B) φ, Q s → Q (visitPhi F L epoch s φ) := by
    intro s φ hs
    refine List.foldlRecOn (motive := Q) _ _ hs fun s hs slot _ => ?_
    unfold visitSlot
    split_ifs
    · exact hs
    · exact hv _ _ _ (hv _ _ _ hs)
  have hinst : ∀ (k : ℕ) (s : LiveState B) i, Q s → Q (visitInst F L epoch k s i) := by
    intro k s i hs
    have hres : Q (i.results.foldl (visitResult F L epoch k) s) :=
      List.foldlRecOn (motive := Q) _ _ hs fun s hs v _ => hv s v k hs
    exact List.foldlRecOn (motive := Q) _ (fun (s : LiveState B) v => s.visit F L epoch v k) hres
      fun s hs v _ => hv s v k hs
  refine List.foldlRecOn (motive := Q) _ _ ?_ fun s hs b _ => ?_
  · split_ifs
    · exact List.foldlRecOn (motive := Q) _ _ h fun s hs v _ => hv s v 0 hs
    · exact h
  · refine List.foldlRecOn (motive := Q) _ _ ?_ fun s hs i _ => hinst b.2 s i hs
    have hphis :=
      List.foldlRecOn (motive := Q) (F.blockPhis b.1) (visitPhi F L epoch) hs fun s hs φ _ => hphi s φ hs
    split_ifs <;> exact hphis

/-- `compute_liveness`. -/
def computeLiveness (L : BlockLayout B) (t : LivenessTable) : Analysis B :=
  let t := t.bump
  let s := liveLoop F L t.epoch t.liveness
  { layout := { L with blockInfo2 := s.blockInfo2 }
    table :=
      { liveness := s.liveness
        epoch := t.epoch
        epoch_lt := t.epoch_lt
        le_epoch := liveLoop_keeps F L t.epoch (fun f => ∀ i, (f i).epoch ≤ t.epoch)
          (fun f v p hf i => by
            unfold visitVec
            split_ifs
            · exact hf i
            · by_cases hi : i = F.valLocalIdx v
              · subst hi
                rw [Function.update_self, epoch_visitInfo]
              · rw [Function.update_of_ne hi]
                exact hf i) t.liveness t.le_epoch }
    definitions := s.definitions
    inChilds := definitionsInChilds L.loops s.definitions (L.loops.size - 1) fun _ => 0
    numInsts := s.numInsts }

/-- `switch_func`: the layout, and the liveness in a table that earlier functions may have used. -/
def switchFunc (t : LivenessTable) : Analysis B := computeLiveness F (buildBlockLayout F.toCfg) t

/-- `liveness_info(val_idx)`. -/
def Analysis.livenessInfo (a : Analysis B) (i : ℕ) : LivenessInfo := a.table.liveness i

end

end Tpde.Analyzer
