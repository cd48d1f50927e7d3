import Mathlib.Data.BitVec
import Mathlib.Tactic.Ring
import Tpde.Llvm.IcmpX64
import Tpde.Llvm.Switch

/-!
# Switches on x86-64

A comparison with a constant that does not fit an instruction goes through the register for
constants. A jump table is behind the code that reads it: each entry is the distance from the
table to a label, so the code takes the address of the table, adds the entry to it and jumps
there (`SwitchX64.compileSwitch_x64_correct`).
-/

namespace Tpde.SwitchX64

open LabelCode Icmp Switch SubFlags

/-- The instructions of a switch, the bytes that align the table, and its entries. -/
inductive Inst (B : Type) where
  | op (i : IcmpX64.Inst)
  | jcc (jump : IcmpX64.Jump) (l : ℕ)
  | jmp (l : ℕ)
  | sub64ri (r : Reg) (imm : BitVec 32)
  | sub64rr (dst src : Reg)
  | lea64rm (dst : Reg) (l : ℕ)
  | movsxr64m32 (dst base index : Reg)
  | add64rr (dst src : Reg)
  | jmpr (r : Reg)
  | pad (n : ℕ)
  | entry (table l : ℕ)
  | branchToBlock (b : B)
  deriving DecidableEq, Repr

/-- The address of the code, the sizes of the instructions, and flags that nothing reads. -/
structure Placement (B : Type) where
  base : BitVec 64
  size : Inst B → ℕ
  size_pos (i : Inst B) : 0 < size i
  size_pad (n : ℕ) (hn : 0 < n) : size (.pad n) = n
  size_entry (table l : ℕ) : size (.entry table l) = 4
  unread : Flags

section
variable {B : Type} (P : Placement B)

/-- Runs an instruction. The table is read where its address leads. -/
def exec (fetch : ℕ → Option (Inst B)) (offset : ℕ → Option ℕ) (i : Inst B) (s : State) :
    Option (Effect State ℕ B) :=
  match i with
  | .op i => some (.next (IcmpX64.exec P.unread i s))
  | .jcc jump l => some (if jump.holds s.flags then .jump l s else .next s)
  | .jmp l => some (.jump l s)
  | .sub64ri r imm => some (.next { s.set r (s.regs r - imm.signExtend 64) with
    flags := sub (s.regs r) (imm.signExtend 64) false })
  | .sub64rr dst src => some (.next { s.set dst (s.regs dst - s.regs src) with
    flags := sub (s.regs dst) (s.regs src) false })
  | .lea64rm dst l => (offset l).map fun off => .next (s.set dst (P.base + BitVec.ofNat 64 off))
  | .movsxr64m32 dst base index =>
    match fetch (s.regs base + 4 * s.regs index - P.base).toNat with
    | some (.entry table l) =>
      (offset table).bind fun tableOff => (offset l).map fun labelOff : ℕ =>
        .next (s.set dst ((BitVec.ofInt 32 ((labelOff : ℤ) - tableOff)).signExtend 64))
    | _ => none
  | .add64rr dst src => some (.next { s.set dst (s.regs dst + s.regs src) with flags := P.unread })
  | .jmpr r => some (.goto (s.regs r - P.base).toNat s)
  | .pad _ | .entry .. => none
  | .branchToBlock b => some (.exit b s)

def isa : Isa (Inst B) ℕ State B := ⟨P.size, P.size_pos, exec P⟩

variable {fetch : ℕ → Option (Inst B)} {offset : ℕ → Option ℕ} {s : State}

theorem exec_lea64rm {l off : ℕ} (hl : offset l = some off) (dst : Reg) :
    (isa P).exec fetch offset (.lea64rm dst l) s =
      some (.next (s.set dst (P.base + BitVec.ofNat 64 off))) := by
  simp only [isa, exec, hl, Option.map_some]

theorem exec_movsxr64m32 {dst base index : Reg} {at_ table l tableOff labelOff : ℕ}
    (haddr : (s.regs base + 4 * s.regs index - P.base).toNat = at_)
    (hfetch : fetch at_ = some (.entry table l)) (htable : offset table = some tableOff)
    (hl : offset l = some labelOff) :
    (isa P).exec fetch offset (.movsxr64m32 dst base index) s =
      some (.next (s.set dst ((BitVec.ofInt 32 (labelOff - tableOff)).signExtend 64))) := by
  simp only [isa, exec, haddr, hfetch, htable, hl, Option.bind_some, Option.map_some]

theorem exec_jmpr {r : Reg} {off : ℕ} (haddr : (s.regs r - P.base).toNat = off) :
    (isa P).exec fetch offset (.jmpr r) s = some (.goto off s) := by
  simp only [isa, exec, haddr]

end

/-! ### What is emitted -/

/-- The value is that of an immediate. -/
def FitsImm (v : BitVec 64) : Prop := (v.setWidth 32).signExtend 64 = v

instance (v : BitVec 64) : Decidable (FitsImm v) := inferInstanceAs (Decidable (_ = _))

/-- `switch_emit_cmp`. -/
def switchEmitCmp (cmpReg tmpReg : Reg) (caseValue : BitVec 64) (widthIs32 : Bool) : List IcmpX64.Inst :=
  if widthIs32 then [.cmp32ri cmpReg (caseValue.setWidth 32)]
  else if FitsImm caseValue then [.cmp64ri cmpReg (caseValue.setWidth 32)]
  else IcmpX64.materializeConstant caseValue 8 tmpReg ++ [.cmprr 64 cmpReg tmpReg]

section
variable {B : Type}

/-- The instructions of comparisons, among those of switches. -/
def ops (is : List IcmpX64.Inst) : Code (Inst B) := is.map fun i => .inst (.op i)

/-- `switch_emit_cmpeq`. -/
def switchEmitCmpeq (caseLabel : ℕ) (cmpReg tmpReg : Reg) (caseValue : BitVec 64) (widthIs32 : Bool) :
    Code (Inst B) :=
  ops (switchEmitCmp cmpReg tmpReg caseValue widthIs32) ++ [.inst (.jcc .je caseLabel)]

/-- `switch_emit_binary_step`. -/
def switchEmitBinaryStep (caseLabel gtLabel : ℕ) (cmpReg tmpReg : Reg) (caseValue : BitVec 64)
    (widthIs32 : Bool) : Code (Inst B) :=
  switchEmitCmpeq caseLabel cmpReg tmpReg caseValue widthIs32 ++ [.inst (.jcc .ja gtLabel)]

/-- Jumps to the default for a condition below the table. -/
def checkLow (defaultLabel : ℕ) (cmpReg tmpReg : Reg) (lowBound : BitVec 64) (widthIs32 : Bool) :
    Code (Inst B) :=
  if lowBound = 0 then []
    else ops (switchEmitCmp cmpReg tmpReg lowBound widthIs32) ++ [.inst (.jcc .jb defaultLabel)]

/-- Jumps to the default for a condition above the table. -/
def checkHigh (defaultLabel : ℕ) (cmpReg tmpReg : Reg) (highBound : BitVec 64) (widthIs32 : Bool) :
    Code (Inst B) :=
  ops (switchEmitCmp cmpReg tmpReg highBound widthIs32) ++ [.inst (.jcc .ja defaultLabel)]

/-- Makes an index of the condition. -/
def tableIndex (cmpReg tmpReg : Reg) (lowBound : BitVec 64) (widthIs32 : Bool) : Code (Inst B) :=
  (if widthIs32 then ops [.mov32rr cmpReg cmpReg] else []) ++
    if lowBound = 0 then []
    else if FitsImm lowBound then [.inst (.sub64ri cmpReg (lowBound.setWidth 32))]
    else ops (IcmpX64.materializeConstant lowBound 8 tmpReg) ++ [.inst (.sub64rr cmpReg tmpReg)]

/-- Jumps to the label of the entry. -/
def tableJump (table : ℕ) (cmpReg tmpReg : Reg) : Code (Inst B) :=
  [.inst (.lea64rm tmpReg table), .inst (.movsxr64m32 cmpReg tmpReg cmpReg),
    .inst (.add64rr tmpReg cmpReg), .inst (.jmpr tmpReg)]

/-- `text_writer.align`, to four bytes. -/
def align (off : ℕ) : Code (Inst B) := if (4 - off % 4) % 4 = 0 then []
    else [.inst (.pad ((4 - off % 4) % 4))]

/-- The entries of a jump table. -/
def entries (table : ℕ) (ls : List ℕ) : Code (Inst B) := ls.map fun l => .inst (.entry table l)

/-- `switch_emit_jump_table`. -/
def switchEmitJumpTable (P : Placement B) (off next defaultLabel : ℕ) (ls : List ℕ)
    (cmpReg tmpReg : Reg) (lowBound highBound : BitVec 64)
    (widthIs32 : Bool) : Option (Code (Inst B) × ℕ) :=
  let lookup := checkLow defaultLabel cmpReg tmpReg lowBound widthIs32 ++
    (checkHigh defaultLabel cmpReg tmpReg highBound widthIs32 ++
      (tableIndex cmpReg tmpReg lowBound widthIs32 ++ tableJump next cmpReg tmpReg))
  some (lookup ++ (align (off + length (isa P) lookup) ++ .label next :: entries next ls), next + 1)

/-- What x86-64 supplies. -/
def derived (P : Placement B) : Switch.Derived IcmpX64.Inst (Inst B) B where
  ops := IcmpX64.derived P.unread
  isa := isa P
  op := .op
  mov width dst src := if width ≤ 32 then .mov32rr dst src else .mov64rr dst src
  jmp := .jmp
  branchToBlock := .branchToBlock
  switchEmitCmpeq := switchEmitCmpeq
  switchEmitBinaryStep := switchEmitBinaryStep
  switchEmitJumpTable := switchEmitJumpTable P

end

/-! ### Comparisons -/

section
variable {B : Type} {P : Placement B} {code rest : Code (Inst B)} {a : ℕ} {cmp tmp : Reg}
    {v : BitVec 64} {is32 : Bool}

theorem labels_ops (is : List IcmpX64.Inst) : labels (ops is : Code (Inst B)) = [] := labels_map_inst _ _

theorem ops_runs {is : List IcmpX64.Inst} (hat : CodeAt (isa P) code a (ops is ++ rest)) (s : State) :
    Runs (isa P) code (.run a s)
      (.run (a + length (isa P) (ops is : Code (Inst B))) (run (IcmpX64.exec P.unread) is s)) :=
  CodeAt.straight (fun _ _ => rfl) is hat

/-- A constant for a register. -/
theorem materialize_value (data : BitVec 64) (r : Reg) (s : State) :
    (run (IcmpX64.exec P.unread) (IcmpX64.materializeConstant data 8 r) s).regs r = data := by
  have h := IcmpX64.materialize_self P.unread s data 8 r le_rfl le_rfl
  rwa [BitVec.setWidth_eq, BitVec.setWidth_eq] at h

theorem materialize_other (data : BitVec 64) {r q : Reg} (s : State) (hq : q ≠ r) :
    (run (IcmpX64.exec P.unread) (IcmpX64.materializeConstant data 8 r) s).regs q = s.regs q :=
  (IcmpX64.derived_ok P.unread).materialize_other data 8 s hq

/-- **A comparison** sets the flags for the condition and the value. -/
theorem switchEmitCmp_spec (htmp : cmp ≠ tmp) (hv : Narrow is32 v) (s : State) :
    Compared (run (IcmpX64.exec P.unread) (switchEmitCmp cmp tmp v is32) s).flags (word is32 (s.regs cmp)) v ∧
      ∀ q, q ≠ tmp → (run (IcmpX64.exec P.unread) (switchEmitCmp cmp tmp v is32) s).regs q = s.regs q := by
  unfold switchEmitCmp
  cases is32 with
  | true => exact ⟨compared_sub_low (s.regs cmp) (hv rfl), fun _ _ => rfl⟩
  | false =>
    simp only [Bool.false_eq_true, if_false]
    split_ifs with hfits
    · have hfits : (v.setWidth 32).signExtend 64 = v := hfits
      simp only [run_cons, run_nil, IcmpX64.exec, hfits]
      exact ⟨compared_sub (s.regs cmp) v, fun _ _ => trivial⟩
    · rw [run_append]
      refine ⟨?_, fun q hq => materialize_other v s hq⟩
      have h := compared_sub (s.regs cmp) v
      simp only [run_cons, run_nil, IcmpX64.exec, BitVec.setWidth_eq, materialize_value,
        materialize_other v s htmp]
      exact h

/-- A conditional jump behind a comparison. -/
theorem compare_runs {jump : IcmpX64.Jump} {l pos : ℕ}
    (hat : CodeAt (isa P) code a (ops (switchEmitCmp cmp tmp v is32) ++ .inst (.jcc jump l) :: rest))
    (hl : offset (isa P) code l = some pos) (htmp : cmp ≠ tmp) (hv : Narrow is32 v) (s : State) :
    ∃ s', Compared s'.flags (word is32 (s.regs cmp)) v ∧ (∀ q, q ≠ tmp → s'.regs q = s.regs q) ∧
      Runs (isa P) code (.run a s) (.run (if jump.holds s'.flags then pos else
        a + length (isa P) (ops (switchEmitCmp cmp tmp v is32) : Code (Inst B)) +
          (isa P).size (.jcc jump l)) s') := by
  obtain ⟨hcompared, hkeep⟩ := switchEmitCmp_spec (P := P) htmp hv s
  exact ⟨_, hcompared, hkeep, (ops_runs hat s).trans (hat.right.branch rfl hl)⟩

end

/-! ### Jump tables -/

section
variable {B : Type} {P : Placement B} {code rest : Code (Inst B)} {a : ℕ} {cmp tmp : Reg}
    {low high : BitVec 64} {is32 : Bool}

theorem holds_jb {f : Flags} {x v : BitVec 64} (h : Compared f x v) :
    IcmpX64.Jump.jb.holds f = decide (x.toNat < v.toNat) := h.borrow

theorem holds_ja {f : Flags} {x v : BitVec 64} (h : Compared f x v) :
    IcmpX64.Jump.ja.holds f = decide (v.toNat < x.toNat) := by
  rw [IcmpX64.Jump.holds, h.borrow, h.zero, Bool.eq_iff_iff]
  simp only [Bool.and_eq_true, Bool.not_eq_true', decide_eq_false_iff_not, decide_eq_true_eq, BitVec.toNat_eq]
  omega

theorem checkLow_runs {l pos : ℕ} (hat : CodeAt (isa P) code a (checkLow l cmp tmp low is32 ++ rest))
    (hl : offset (isa P) code l = some pos) (htmp : cmp ≠ tmp) (hlow : Narrow is32 low) (s : State) :
    ∃ s', (∀ q, q ≠ tmp → s'.regs q = s.regs q) ∧ Runs (isa P) code (.run a s)
      (.run (if (word is32 (s.regs cmp)).toNat < low.toNat then pos
        else a + length (isa P) (checkLow l cmp tmp low is32 : Code (Inst B))) s') := by
  by_cases hzero : low = 0
  · refine ⟨s, fun _ _ => rfl, ?_⟩
    rw [checkLow, if_pos hzero, hzero, if_neg (by simp)]
    exact Runs.refl _
  · rw [checkLow, if_neg hzero, List.append_assoc] at hat
    obtain ⟨s', hcompared, hkeep, hrun⟩ := compare_runs hat hl htmp hlow s
    rw [holds_jb hcompared] at hrun
    refine ⟨s', hkeep, ?_⟩
    rw [checkLow, if_neg hzero, length_append, length_inst, length_nil, Nat.add_zero, ← Nat.add_assoc]
    simpa only [decide_eq_true_eq] using hrun

theorem checkHigh_runs {l pos : ℕ} (hat : CodeAt (isa P) code a (checkHigh l cmp tmp high is32 ++ rest))
    (hl : offset (isa P) code l = some pos) (htmp : cmp ≠ tmp) (hhigh : Narrow is32 high) (s : State) :
    ∃ s', (∀ q, q ≠ tmp → s'.regs q = s.regs q) ∧ Runs (isa P) code (.run a s)
      (.run (if high.toNat < (word is32 (s.regs cmp)).toNat then pos
        else a + length (isa P) (checkHigh l cmp tmp high is32 : Code (Inst B))) s') := by
  rw [checkHigh, List.append_assoc] at hat
  obtain ⟨s', hcompared, hkeep, hrun⟩ := compare_runs hat hl htmp hhigh s
  rw [holds_ja hcompared] at hrun
  refine ⟨s', hkeep, ?_⟩
  rw [checkHigh, length_append, length_inst, length_nil, Nat.add_zero, ← Nat.add_assoc]
  simpa only [decide_eq_true_eq] using hrun

/-- **The index** is the distance from the lower bound. -/
theorem tableIndex_runs (hat : CodeAt (isa P) code a (tableIndex cmp tmp low is32 ++ rest))
    (htmp : cmp ≠ tmp) (s : State) :
    ∃ s', s'.regs cmp = word is32 (s.regs cmp) - low ∧ (∀ q, q ≠ cmp → q ≠ tmp → s'.regs q = s.regs q) ∧
      Runs (isa P) code (.run a s)
        (.run (a + length (isa P) (tableIndex cmp tmp low is32 : Code (Inst B))) s') := by
  -- the high half is cleared
  obtain ⟨s₁, hword, hkeep₁, hrun₁⟩ : ∃ s', s'.regs cmp = word is32 (s.regs cmp) ∧
    (∀ q, q ≠ cmp → s'.regs q = s.regs q) ∧
      Runs (isa P) code (.run a s)
        (.run (a + length (isa P) ((if is32 then ops [.mov32rr cmp cmp] else []) : Code (Inst B))) s') := by
    cases is32 with
    | true =>
      rw [tableIndex, if_pos rfl, List.append_assoc] at hat
      refine ⟨_, ?_, ?_, ops_runs hat s⟩
      · simp [IcmpX64.exec, word]
      · exact fun q hq => State.set_other s _ hq
    | false => exact ⟨s, rfl, fun _ _ => rfl, Runs.refl _⟩
  rw [tableIndex, List.append_assoc] at hat
  have hat' := hat.right
  rw [tableIndex, length_append, ← Nat.add_assoc]
  by_cases hzero : low = 0
  · refine ⟨s₁, ?_, fun q hq _ => hkeep₁ q hq, ?_⟩
    · rw [hword, hzero]
      exact (BitVec.sub_zero _).symm
    · rw [if_pos hzero]
      exact hrun₁
  rw [if_neg hzero] at hat' ⊢
  by_cases hfits : FitsImm low
  · rw [if_pos hfits] at hat' ⊢
    refine ⟨_, ?_, ?_, hrun₁.trans (hat'.next rfl)⟩
    · have hfits : (low.setWidth 32).signExtend 64 = low := hfits
      simp [State.set, hword, hfits]
    · exact fun q hq _ => (State.set_other s₁ _ hq).trans (hkeep₁ q hq)
  · rw [if_neg hfits] at hat' ⊢
    rw [List.append_assoc] at hat'
    have hrun₂ := ops_runs hat' s₁
    have hrun₃ :=
      hat'.right.next (s := run (IcmpX64.exec P.unread) (IcmpX64.materializeConstant low 8 tmp) s₁) rfl
    rw [length_append, length_inst, length_nil, Nat.add_zero, ← Nat.add_assoc]
    refine ⟨_, ?_, ?_, hrun₁.trans (hrun₂.trans hrun₃)⟩
    · simp [State.set, materialize_value, materialize_other low s₁ htmp, hword]
    · exact fun q hq hq' =>
        (State.set_other _ _ hq).trans ((materialize_other low s₁ hq').trans (hkeep₁ q hq))

theorem entry_at {table at_ : ℕ} {ls : List ℕ}
    (hat : CodeAt (isa P) code at_ (entries table ls ++ rest)) {k : ℕ} (hk : k < ls.length) :
    fetch (isa P) code (at_ + 4 * k) = some (.entry table ls[k]) := by
  induction ls generalizing at_ k with
  | nil => simp at hk
  | cons l ls ih =>
    rw [entries, List.map_cons, List.cons_append] at hat
    cases k with
    | zero => exact hat.fetch
    | succ k =>
      have h := ih hat.tail (k := k) (by simpa using hk)
      rw [show (isa P).size (.entry table l) = 4 from P.size_entry table l] at h
      rw [show at_ + 4 * (k + 1) = at_ + 4 + 4 * k by omega]
      exact h

theorem length_entries (table : ℕ) (ls : List ℕ) :
    length (isa P) (entries table ls : Code (Inst B)) = 4 * ls.length := by
  induction ls with
  | nil => rfl
  | cons l ls ih =>
    rw [entries, List.map_cons, length_inst, List.length_cons]
    have hsize : (isa P).size (.entry table l) = 4 := P.size_entry table l
    have ih : length (isa P) (ls.map fun l => (.inst (.entry table l) : Item (Inst B) ℕ)) =
      4 * ls.length := ih
    omega

theorem signExtend_ofInt {d : ℤ} (hlow : -2 ^ 31 ≤ d) (hhigh : d < 2 ^ 31) :
    (BitVec.ofInt 32 d).signExtend 64 = BitVec.ofInt 64 d := by
  apply BitVec.eq_of_toInt_eq
  rw [BitVec.toInt_signExtend_of_le (by omega), BitVec.toInt_ofInt, BitVec.toInt_ofInt,
    Int.bmod_eq_of_le (by omega) (by omega),
    Int.bmod_eq_of_le (by omega) (by omega)]

/-- **The table** leads to the label of an entry. -/
theorem tableJump_runs {table tableOff : ℕ} {ls : List ℕ} {rest' : Code (Inst B)}
    (hat : CodeAt (isa P) code a (tableJump table cmp tmp ++ rest))
    (htable : offset (isa P) code table = some tableOff)
    (hentries : CodeAt (isa P) code tableOff (entries table ls ++ rest'))
    (hsize : length (isa P) code < 2 ^ 31) (htmp : cmp ≠ tmp) {k pos : ℕ} (hk : k < ls.length)
    (hpos : offset (isa P) code ls[k] = some pos)
    {s : State} (hs : s.regs cmp = BitVec.ofNat 64 k) :
    ∃ s', (∀ q, q ≠ cmp → q ≠ tmp → s'.regs q = s.regs q) ∧ Runs (isa P) code (.run a s) (.run pos s') := by
  have hentry := entry_at hentries hk
  have hposLe := offset_le hpos
  have hwithin := hentries.within
  rw [length_append, length_entries] at hwithin
  set s₁ := s.set tmp (P.base + BitVec.ofNat 64 tableOff) with hs₁
  have hrun₁ : Runs (isa P) code (.run a s) (.run (a + (isa P).size (.lea64rm tmp table)) s₁) :=
    hat.next (exec_lea64rm P htable tmp)
  have haddr : (s₁.regs tmp + 4 * s₁.regs cmp - P.base).toNat = tableOff + 4 * k := by
    rw [hs₁, State.set_self, State.set_other _ _ htmp, hs]
    bv_omega
  set s₂ := s₁.set cmp ((BitVec.ofInt 32 (pos - tableOff)).signExtend 64) with hs₂
  have hrun₂ := hat.tail.next (exec_movsxr64m32 P haddr hentry htable hpos)
  have hrun₃ := hat.tail.tail.next (s := s₂) rfl
  set s₃ : State := { s₂.set tmp (s₂.regs tmp + s₂.regs cmp) with flags := P.unread } with hs₃
  have hdest : (s₃.regs tmp - P.base).toNat = pos := by
    have htmpReg : s₃.regs tmp = s₂.regs tmp + s₂.regs cmp := State.set_self s₂ tmp _
    rw [htmpReg, hs₂, State.set_self, State.set_other _ _ htmp.symm, hs₁, State.set_self,
      signExtend_ofInt (by omega) (by omega)]
    have hsum : P.base + BitVec.ofNat 64 tableOff + BitVec.ofInt 64 (pos - tableOff) - P.base =
      BitVec.ofNat 64 pos := by
      rw [Int.sub_eq_add_neg, BitVec.ofInt_add, BitVec.ofInt_neg, BitVec.ofInt_natCast, BitVec.ofInt_natCast]
      ring
    rw [hsum, BitVec.toNat_ofNat, Nat.mod_eq_of_lt (by omega)]
  have hrun₄ := hat.tail.tail.tail.goto (exec_jmpr P hdest)
  refine ⟨s₃, fun q hq hq' => ?_, hrun₁.trans (hrun₂.trans (hrun₃.trans hrun₄))⟩
  exact (State.set_other s₂ _ hq').trans ((State.set_other s₁ _ hq).trans (State.set_other s _ hq'))

end

/-! ### The target -/

section
variable {B : Type} (P : Placement B)

theorem labels_tableIndex (cmp tmp : Reg) (low : BitVec 64) (is32 : Bool) :
    labels (tableIndex cmp tmp low is32 : Code (Inst B)) = [] := by
  unfold tableIndex
  split_ifs <;> simp [labels_ops]

theorem labels_checkLow (l : ℕ) (cmp tmp : Reg) (low : BitVec 64) (is32 : Bool) :
    labels (checkLow l cmp tmp low is32 : Code (Inst B)) = [] := by
  unfold checkLow
  split_ifs <;> simp [labels_ops]

theorem labels_align (off : ℕ) : labels (align off : Code (Inst B)) = [] := by
  unfold align
  split_ifs <;> rfl

theorem switchEmitCmpeq_runs {code rest : Code (Inst B)} {a pos l : ℕ} {cmp tmp : Reg} {v : BitVec 64}
    {is32 : Bool} (s : State)
    (hat : CodeAt (isa P) code a (switchEmitCmpeq l cmp tmp v is32 ++ rest))
    (hl : offset (isa P) code l = some pos) (htmp : cmp ≠ tmp)
    (hv : Narrow is32 v) : ∃ s', Compared s'.flags (word is32 (s.regs cmp)) v ∧
      (∀ q, q ≠ tmp → s'.regs q = s.regs q) ∧
      Runs (isa P) code (.run a s)
        (.run (if word is32 (s.regs cmp) = v then pos
          else a + length (isa P) (switchEmitCmpeq l cmp tmp v is32 : Code (Inst B))) s') := by
  rw [switchEmitCmpeq, List.append_assoc] at hat
  obtain ⟨s', hcompared, hkeep, hrun⟩ := compare_runs hat hl htmp hv s
  rw [IcmpX64.Jump.holds, hcompared.zero] at hrun
  refine ⟨s', hcompared, hkeep, ?_⟩
  rw [switchEmitCmpeq, length_append, length_inst, length_nil, Nat.add_zero, ← Nat.add_assoc]
  simpa only [decide_eq_true_eq] using hrun

theorem switchEmitBinaryStep_runs {code : Code (Inst B)} {a pos gtPos l gt : ℕ} {cmp tmp : Reg}
    {v : BitVec 64} {is32 : Bool} (s : State)
    (hat : CodeAt (isa P) code a (switchEmitBinaryStep l gt cmp tmp v is32))
    (hl : offset (isa P) code l = some pos)
    (hgt : offset (isa P) code gt = some gtPos) (htmp : cmp ≠ tmp) (hv : Narrow is32 v) :
    ∃ s', (∀ q, q ≠ tmp → s'.regs q = s.regs q) ∧
      Runs (isa P) code (.run a s)
        (.run (if word is32 (s.regs cmp) = v then pos
          else if v.toNat < (word is32 (s.regs cmp)).toNat then gtPos
          else a + length (isa P) (switchEmitBinaryStep l gt cmp tmp v is32 : Code (Inst B))) s') := by
  obtain ⟨s', hcompared, hkeep, hrun⟩ := switchEmitCmpeq_runs P s hat hl htmp hv
  refine ⟨s', hkeep, ?_⟩
  by_cases heq : word is32 (s.regs cmp) = v
  · rw [if_pos heq] at hrun ⊢
    exact hrun
  · rw [if_neg heq] at hrun ⊢
    have hjump := hat.right.branch (s := s') rfl hgt
    rw [holds_ja hcompared] at hjump
    simp only [decide_eq_true_eq] at hjump
    rw [switchEmitBinaryStep, length_append, length_inst, length_nil, Nat.add_zero, ← Nat.add_assoc]
    exact hrun.trans hjump

/-- **A jump table** leads to the label of the condition. -/
theorem switchEmitJumpTable_runs {code : Code (Inst B)} {a off next dflt : ℕ} {ls : List ℕ}
    {cmp tmp : Reg} {low high : BitVec 64}
    {is32 : Bool} {is : Code (Inst B)} {next' : ℕ} {pos : ℕ → ℕ} (s : State)
    (h : switchEmitJumpTable P off next dflt ls cmp tmp low high is32 = some (is, next'))
    (hat : CodeAt (isa P) code a is) (hnodup : (labels code).Nodup) (hsize : length (isa P) code < 2 ^ 31)
    (hpos : ∀ l ∈ dflt :: ls, offset (isa P) code l = some (pos l)) (htmp : cmp ≠ tmp)
    (hlow : Narrow is32 low)
    (hhigh : Narrow is32 high) (hlen : ls.length = high.toNat - low.toNat + 1) :
    ∃ s', (∀ q, q ≠ cmp → q ≠ tmp → s'.regs q = s.regs q) ∧
      Runs (isa P) code (.run a s)
        (.run
          (pos (if low.toNat ≤ (word is32 (s.regs cmp)).toNat ∧
          (word is32 (s.regs cmp)).toNat ≤ high.toNat then
          ls.getD ((word is32 (s.regs cmp)).toNat - low.toNat) dflt else dflt)) s') := by
  obtain ⟨hdflt, hls⟩ := List.forall_mem_cons.mp hpos
  have hcode := (Prod.mk.inj (Option.some.inj h)).1
  rw [← hcode, List.append_assoc] at hat
  set x := word is32 (s.regs cmp) with hx
  obtain ⟨s₁, hkeep₁, hrun₁⟩ := checkLow_runs hat hdflt htmp hlow s
  by_cases hbelow : x.toNat < low.toNat
  · rw [if_pos hbelow] at hrun₁
    exact ⟨s₁, fun q _ hq => hkeep₁ q hq, by rwa [if_neg (by omega)]⟩
  rw [if_neg hbelow] at hrun₁
  have hat₂ := hat.right
  rw [List.append_assoc] at hat₂
  obtain ⟨s₂, hkeep₂, hrun₂⟩ := checkHigh_runs hat₂ hdflt htmp hhigh s₁
  rw [hkeep₁ _ htmp, ← hx] at hrun₂
  by_cases habove : high.toNat < x.toNat
  · rw [if_pos habove] at hrun₂
    exact ⟨s₂,
      fun q _ hq => (hkeep₂ q hq).trans (hkeep₁ q hq), by rw [if_neg (by omega)]; exact hrun₁.trans hrun₂⟩
  rw [if_neg habove] at hrun₂
  -- the condition is between the bounds
  have hat₃ := hat₂.right
  rw [List.append_assoc] at hat₃
  obtain ⟨s₃, hindex, hkeep₃, hrun₃⟩ := tableIndex_runs hat₃ htmp s₂
  have htable := hat₃.right.right.right
  have hk : x.toNat - low.toNat < ls.length := by omega
  have hs₃ : s₃.regs cmp = BitVec.ofNat 64 (x.toNat - low.toNat) := by
    rw [hindex, hkeep₂ _ htmp, hkeep₁ _ htmp, ← hx]
    apply BitVec.eq_of_toNat_eq
    rw [BitVec.toNat_sub_of_le (by rw [BitVec.le_def]; omega), BitVec.toNat_ofNat, Nat.mod_eq_of_lt]
    exact (Nat.sub_le ..).trans_lt x.isLt
  have hentries := htable.behind
  rw [← List.append_nil (entries next ls)] at hentries
  obtain ⟨s₄, hkeep₄, hrun₄⟩ :=
    tableJump_runs hat₃.right (htable.offset hnodup) hentries hsize htmp hk (hls _ (List.getElem_mem hk)) hs₃
  refine ⟨s₄, fun q hq hq' => ?_, ?_⟩
  · exact (hkeep₄ q hq hq').trans ((hkeep₃ q hq hq').trans ((hkeep₂ q hq').trans (hkeep₁ q hq')))
  · rw [if_pos (by omega), List.getD_eq_getElem?_getD, List.getElem?_eq_getElem hk, Option.getD_some]
    exact hrun₁.trans (hrun₂.trans (hrun₃.trans hrun₄))

/-- **The target does what a switch expects of it.** -/
theorem derived_ok : (derived P).Ok where
  ops := IcmpX64.derived_ok P.unread
  op _ _ _ _ := rfl
  mov_self {width} hw dst src s := by
    rcases hw with rfl | rfl <;> simp [derived, IcmpX64.derived, IcmpX64.exec]
  mov_other width dst src q s hq := by
    simp only [derived, IcmpX64.derived]
    split_ifs <;> exact State.set_other s _ hq
  jmp _ _ _ _ := rfl
  branchToBlock _ _ _ _ := rfl
  cmpeq_labels l cmp tmp v is32 := by simp [derived, switchEmitCmpeq, labels_ops]
  cmpeq s hat hl htmp hv := by
    rw [← List.append_nil ((derived P).switchEmitCmpeq _ _ _ _ _)] at hat
    obtain ⟨s', -, hkeep, hrun⟩ := switchEmitCmpeq_runs P s hat hl htmp hv
    exact ⟨s', hkeep, hrun⟩
  binaryStep_labels l gt cmp tmp v is32 := by
    simp [derived, switchEmitBinaryStep, switchEmitCmpeq, labels_ops]
  binaryStep s hat hl hgt htmp hv := switchEmitBinaryStep_runs P s hat hl hgt htmp hv
  jumpTable_labels {off next dflt ls cmp tmp low high is32 is next'} h := by
    obtain ⟨hcode, hnext⟩ := Prod.mk.inj (Option.some.inj h)
    have hlabels : labels is = [next] := by
      rw [← hcode]
      simp [labels_checkLow, labels_tableIndex, labels_align, labels_ops, checkHigh, tableJump, entries]
    rw [hlabels]
    exact ⟨by omega, List.nodup_singleton _, fun l hl => by have := List.mem_singleton.mp hl; omega⟩
  jumpTable s h hat hnodup hsize hpos htmp hlow hhigh _ hlen :=
    switchEmitJumpTable_runs P s h hat hnodup hsize hpos htmp hlow hhigh hlen

variable (A : Alloc) {used : Finset Reg} {off next w : ℕ} {cond : Operand w}
    {cases : List (BitVec w × B)} {defaultDest : B} {code : Code (Inst B)}

/-- **A switch on x86-64 goes to the block of its condition**, whichever of its cases are in a
jump table. It goes to no other block, and it keeps the registers in use but for one that the
condition owns. -/
theorem compileSwitch_x64_correct (hw : 0 < w) (hused : cond.part0.regs ⊆ used)
    (hnodup : (cases.map Prod.fst).Nodup)
    (h : compileSwitch (derived P) A used off next cond cases defaultDest = some code)
    (hsize : length (isa P) code < 2 ^ 31) (s : State) :
    (∃ s', Runs (isa P) code (.run 0 s) (.left (destination cases defaultDest (cond.value s)) s')) ∧
      ∀ b s', Runs (isa P) code (.run 0 s) (.left b s') → b = destination cases defaultDest (cond.value s) ∧
        ∀ q ∈ used, (cond.part0.canSalvage = true → q ∉ cond.part0.regs) → s'.regs q = s.regs q := by
  obtain ⟨s₁, hrun, hkeep⟩ := compileSwitch_runs (derived_ok P) A hw hused hnodup h hsize s
  refine ⟨⟨s₁, hrun⟩, fun b s' hrun' => ?_⟩
  obtain ⟨rfl, rfl⟩ := Runs.left_unique hrun hrun'
  exact ⟨rfl, hkeep⟩

end

def sample : Placement ℕ where
  base := 0x400000
  size
    | .pad n => max n 1
    | .entry .. => 4
    | _ => 10
  size_pos i := by cases i <;> simp
  size_pad n hn := by
    simp only
    omega
  size_entry _ _ := rfl
  unread := ⟨false, false, false, false⟩

/-- Five values with one gap. -/
def digits : List (BitVec 32 × ℕ) := [(0, 10), (1, 11), (2, 12), (4, 13), (5, 14)]

theorem compileSwitch_size : ∃ code,
    compileSwitch (derived sample) behind {0} 0 0 (.val 0 0 true) digits 9 = some code ∧
    length (isa sample) code < 2 ^ 31 := by
  refine ⟨_, rfl, ?_⟩
  rw [show sortCases digits = digits.map fun c => (c.1.setWidth 64, c.2) from
    List.mergeSort_of_pairwise (by decide), buildRange]
  decide

/-- At the fourth of five values, through a jump table. -/
theorem compileSwitch_x64_correct_digits : ∃ code,
    compileSwitch (derived sample) behind {0} 0 0 (.val 0 0 true) digits 9 = some code ∧
    ∃ s', Runs (isa sample) code (.run 0 ⟨fun _ => 4, sample.unread⟩) (.left 13 s') := by
  obtain ⟨code, h, hsize⟩ := compileSwitch_size
  exact ⟨code, h,
    (compileSwitch_x64_correct sample behind (by decide) (by decide) (by decide) h hsize ⟨fun _ => 4,
    sample.unread⟩).1⟩

end Tpde.SwitchX64
