import Tpde.Llvm.IcmpA64
import Tpde.Llvm.Switch

/-!
# Switches on AArch64

There are no jump tables (`switch_emit_jump_table` declines): the search is one of comparisons,
with immediates that the encoder accepts and constants in a register otherwise
(`SwitchA64.compileSwitch_a64_correct`).
-/

namespace Tpde.SwitchA64

open LabelCode Icmp Switch

/-- The instructions of a switch. -/
inductive Inst (B : Type) where
  | op (i : IcmpA64.Inst)
  | bcond (cond : IcmpA64.Kind) (l : ℕ)
  | b (l : ℕ)
  | branchToBlock (b : B)
  deriving DecidableEq, Repr

/-- What the encoder decides: the immediates of comparisons and the sizes of the instructions. -/
structure Encoder (B : Type) where
  encodes : ℕ → BitVec 64 → Bool
  size : Inst B → ℕ
  size_pos (i : Inst B) : 0 < size i

section
variable {B : Type} (E : Encoder B)

/-- Runs an instruction. -/
def exec (i : Inst B) (s : State) : Option (Effect State ℕ B) :=
  match i with
  | .op i => some (.next (IcmpA64.exec i s))
  | .bcond cond l => some (if cond.holds s.flags then .jump l s else .next s)
  | .b l => some (.jump l s)
  | .branchToBlock b => some (.exit b s)

def isa : Isa (Inst B) ℕ State B := ⟨E.size, E.size_pos, fun _ _ => exec⟩

/-! ### What is emitted -/

/-- `switch_emit_cmp`. -/
def switchEmitCmp (encodes : ℕ → BitVec 64 → Bool) (cmpReg tmpReg : Reg) (caseValue : BitVec 64)
    (widthIs32 : Bool) : List IcmpA64.Inst :=
  let bits := if widthIs32 then 32 else 64
  if encodes bits caseValue then [.cmpi bits cmpReg caseValue]
  else IcmpA64.derived.materializeConstant caseValue 4 tmpReg ++ [.cmp bits cmpReg tmpReg]

/-- The instructions of comparisons, among those of switches. -/
def ops (is : List IcmpA64.Inst) : Code (Inst B) := is.map fun i => .inst (.op i)

/-- `switch_emit_cmpeq`. -/
def switchEmitCmpeq (caseLabel : ℕ) (cmpReg tmpReg : Reg) (caseValue : BitVec 64) (widthIs32 : Bool) :
    Code (Inst B) :=
  ops (switchEmitCmp E.encodes cmpReg tmpReg caseValue widthIs32) ++ [.inst (.bcond .jeq caseLabel)]

/-- `switch_emit_binary_step`. -/
def switchEmitBinaryStep (caseLabel gtLabel : ℕ) (cmpReg tmpReg : Reg) (caseValue : BitVec 64)
    (widthIs32 : Bool) : Code (Inst B) :=
  switchEmitCmpeq E caseLabel cmpReg tmpReg caseValue widthIs32 ++ [.inst (.bcond .jhi gtLabel)]

/-- What AArch64 supplies. -/
def derived : Switch.Derived IcmpA64.Inst (Inst B) B where
  ops := IcmpA64.derived
  isa := isa E
  op := .op
  mov width dst src := .mov width dst src
  jmp := .b
  branchToBlock := .branchToBlock
  switchEmitCmpeq := switchEmitCmpeq E
  switchEmitBinaryStep := switchEmitBinaryStep E
  switchEmitJumpTable _ _ _ _ _ _ _ _ _ := none

end

/-! ### Comparisons -/

section
variable {B : Type} (E : Encoder B) {code rest : Code (Inst B)} {a pos l : ℕ} {cmp tmp : Reg}
    {v : BitVec 64} {is32 : Bool} (s : State)

theorem labels_ops (is : List IcmpA64.Inst) : labels (ops is : Code (Inst B)) = [] := labels_map_inst _ _

theorem materialize_value (data : BitVec 64) (r : Reg) :
    (run IcmpA64.exec (IcmpA64.derived.materializeConstant data 4 r) s).regs r = data := by
  simp only [IcmpA64.derived]
  split_ifs with hzero
  · simp [IcmpA64.exec, hzero]
  · simp [IcmpA64.exec]

/-- **A comparison** sets the flags for the condition and the value. -/
theorem switchEmitCmp_spec (encodes : ℕ → BitVec 64 → Bool) (htmp : cmp ≠ tmp) (hv : Narrow is32 v) :
    Compared (run IcmpA64.exec (switchEmitCmp encodes cmp tmp v is32) s).flags (word is32 (s.regs cmp)) v ∧
      ∀ q, q ≠ tmp → (run IcmpA64.exec (switchEmitCmp encodes cmp tmp v is32) s).regs q = s.regs q := by
  have hkeep {q : Reg} (hq : q ≠ tmp) :
    (run IcmpA64.exec (IcmpA64.derived.materializeConstant v 4 tmp) s).regs q = s.regs q :=
    IcmpA64.derived_ok.materialize_other v 4 s hq
  have hflags :
    Compared
    (SubFlags.sub ((s.regs cmp).setWidth (if is32 then 32 else 64))
    (v.setWidth (if is32 then 32 else 64)) false)
      (word is32 (s.regs cmp)) v := by
    cases is32 with
    | true => exact compared_sub_low (s.regs cmp) (hv rfl)
    | false =>
      have h := compared_sub (s.regs cmp) v
      simpa [word] using h
  simp only [switchEmitCmp]
  generalize (if is32 then 32 else 64) = bits at hflags
  split_ifs with hencodes
  · exact ⟨hflags, fun _ _ => rfl⟩
  · rw [run_append]
    refine ⟨?_, fun q hq => hkeep hq⟩
    simp only [run_cons, run_nil, IcmpA64.exec, materialize_value, hkeep htmp]
    exact hflags

theorem holds_jhi {f : SubFlags.Flags} {x : BitVec 64} (h : Compared f x v) :
    IcmpA64.Kind.jhi.holds f = decide (v.toNat < x.toNat) := by
  rw [IcmpA64.Kind.holds, h.borrow, h.zero, Bool.eq_iff_iff]
  simp only [Bool.and_eq_true, Bool.not_eq_true', decide_eq_false_iff_not, decide_eq_true_eq, BitVec.toNat_eq]
  omega

theorem switchEmitCmpeq_runs (hat : CodeAt (isa E) code a (switchEmitCmpeq E l cmp tmp v is32 ++ rest))
    (hl : offset (isa E) code l = some pos) (htmp : cmp ≠ tmp) (hv : Narrow is32 v) :
    ∃ s', Compared s'.flags (word is32 (s.regs cmp)) v ∧ (∀ q, q ≠ tmp → s'.regs q = s.regs q) ∧
      Runs (isa E) code (.run a s)
      (.run (if word is32 (s.regs cmp) = v then pos
        else a + length (isa E) (switchEmitCmpeq E l cmp tmp v is32)) s') := by
  rw [switchEmitCmpeq, List.append_assoc] at hat
  obtain ⟨hcompared, hkeep⟩ := switchEmitCmp_spec s E.encodes htmp hv
  have hrun :
    Runs (isa E) code (.run a s) (.run (a + length (isa E) (ops (switchEmitCmp E.encodes cmp tmp v is32)))
      (run IcmpA64.exec (switchEmitCmp E.encodes cmp tmp v is32) s)) := CodeAt.straight (fun _ _ => rfl) _ hat
  have hjump := hat.right.branch (s := run IcmpA64.exec (switchEmitCmp E.encodes cmp tmp v is32) s) rfl hl
  rw [IcmpA64.Kind.holds, hcompared.zero] at hjump
  refine ⟨_, hcompared, hkeep, hrun.trans ?_⟩
  rw [switchEmitCmpeq, length_append, length_inst, length_nil, Nat.add_zero, ← Nat.add_assoc]
  simpa only [decide_eq_true_eq] using hjump

theorem switchEmitBinaryStep_runs {gtPos gt : ℕ}
    (hat : CodeAt (isa E) code a (switchEmitBinaryStep E l gt cmp tmp v is32))
    (hl : offset (isa E) code l = some pos) (hgt : offset (isa E) code gt = some gtPos)
    (htmp : cmp ≠ tmp) (hv : Narrow is32 v) :
    ∃ s', (∀ q, q ≠ tmp → s'.regs q = s.regs q) ∧ Runs (isa E) code (.run a s)
      (.run (if word is32 (s.regs cmp) = v then pos
        else if v.toNat < (word is32 (s.regs cmp)).toNat then gtPos
        else a + length (isa E) (switchEmitBinaryStep E l gt cmp tmp v is32)) s') := by
  obtain ⟨s', hcompared, hkeep, hrun⟩ := switchEmitCmpeq_runs E s hat hl htmp hv
  refine ⟨s', hkeep, ?_⟩
  by_cases heq : word is32 (s.regs cmp) = v
  · rw [if_pos heq] at hrun ⊢
    exact hrun
  · rw [if_neg heq] at hrun ⊢
    have hjump := hat.right.branch (s := s') rfl hgt
    rw [holds_jhi hcompared] at hjump
    simp only [decide_eq_true_eq] at hjump
    rw [switchEmitBinaryStep, length_append, length_inst, length_nil, Nat.add_zero, ← Nat.add_assoc]
    exact hrun.trans hjump

end

/-! ### The target -/

section
variable {B : Type} (E : Encoder B)

/-- **The target does what a switch expects of it.** -/
theorem derived_ok : (derived E).Ok where
  ops := IcmpA64.derived_ok
  op _ _ _ _ := rfl
  mov_self {width} hw dst src s := by
    rcases hw with rfl | rfl <;> simp [derived, IcmpA64.derived, IcmpA64.exec]
  mov_other width dst src q s hq := State.set_other s _ hq
  jmp _ _ _ _ := rfl
  branchToBlock _ _ _ _ := rfl
  cmpeq_labels l cmp tmp v is32 := by simp [derived, switchEmitCmpeq, labels_ops]
  cmpeq s hat hl htmp hv := by
    rw [← List.append_nil ((derived E).switchEmitCmpeq _ _ _ _ _)] at hat
    obtain ⟨s', -, hkeep, hrun⟩ := switchEmitCmpeq_runs E s hat hl htmp hv
    exact ⟨s', hkeep, hrun⟩
  binaryStep_labels l gt cmp tmp v is32 := by
    simp [derived, switchEmitBinaryStep, switchEmitCmpeq, labels_ops]
  binaryStep s hat hl hgt htmp hv := switchEmitBinaryStep_runs E s hat hl hgt htmp hv
  jumpTable_labels h := nomatch h
  jumpTable _ h := nomatch h

variable (A : Alloc) {used : Finset Reg} {off next w : ℕ} {cond : Operand w}
    {cases : List (BitVec w × B)} {defaultDest : B} {code : Code (Inst B)}

/-- **A switch on AArch64 goes to the block of its condition**, whichever immediates the encoder
accepts. It goes to no other block, and it keeps the registers in use but for one that the
condition owns. -/
theorem compileSwitch_a64_correct (hw : 0 < w) (hused : cond.part0.regs ⊆ used)
    (hnodup : (cases.map Prod.fst).Nodup)
    (h : compileSwitch (derived E) A used off next cond cases defaultDest = some code)
    (hsize : length (isa E) code < 2 ^ 31) (s : State) :
    (∃ s', Runs (isa E) code (.run 0 s) (.left (destination cases defaultDest (cond.value s)) s')) ∧
      ∀ b s', Runs (isa E) code (.run 0 s) (.left b s') → b = destination cases defaultDest (cond.value s) ∧
        ∀ q ∈ used, (cond.part0.canSalvage = true → q ∉ cond.part0.regs) → s'.regs q = s.regs q := by
  obtain ⟨s₁, hrun, hkeep⟩ := compileSwitch_runs (derived_ok E) A hw hused hnodup h hsize s
  refine ⟨⟨s₁, hrun⟩, fun b s' hrun' => ?_⟩
  obtain ⟨rfl, rfl⟩ := Runs.left_unique hrun hrun'
  exact ⟨rfl, hkeep⟩

end

/-- Immediates of 12 bits, and constants of up to four instructions. -/
def sample : Encoder ℕ where
  encodes _ v := v < 4096
  size
    | .op (.movConst ..) => 16
    | _ => 4
  size_pos i := by
    split
    all_goals decide

/-- Four values, of which two are no immediates. -/
def values : List (BitVec 64 × ℕ) := [(3, 10), (70, 11), (70000, 12), (1 <<< 40, 13)]

theorem compileSwitch_size : ∃ code,
    compileSwitch (derived sample) behind {0} 0 0 (.val 0 0 false) values 9 = some code ∧
    length (isa sample) code < 2 ^ 31 := by
  refine ⟨_, rfl, ?_⟩
  rw [show sortCases values = values.map fun c => (c.1.setWidth 64, c.2) from
    List.mergeSort_of_pairwise (by decide), buildRange]
  decide

/-- At the last of four values, which is compared in a register. -/
theorem compileSwitch_a64_correct_values : ∃ code,
    compileSwitch (derived sample) behind {0} 0 0 (.val 0 0 false) values 9 = some code ∧
    ∃ s',
      Runs (isa sample) code (.run 0 ⟨fun _ => 1 <<< 40, ⟨false, false, false, false⟩⟩) (.left 13 s') := by
  obtain ⟨code, h, hsize⟩ := compileSwitch_size
  exact ⟨code, h, (compileSwitch_a64_correct sample behind (by decide) (by decide) (by decide) h hsize
    ⟨fun _ => 1 <<< 40, ⟨false, false, false, false⟩⟩).1⟩

end Tpde.SwitchA64
