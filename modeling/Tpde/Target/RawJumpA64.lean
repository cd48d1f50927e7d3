import Tpde.Assembler.FunctionWriterA64
import Mathlib.Tactic.Linarith

/-!
# Jumps to labels on AArch64

`generate_raw_jump` writes a jump to a label. A label that is placed is behind the jump: if it
is in reach of the conditional branch this branch goes there, and otherwise the complementary
branch goes over an unconditional one. The distance is computed before there is room for the
second instruction. If the writer leaves an area for veneers to make this room, the jump
misses its label by the size of the area (`generateRawJump_iff`).
-/

namespace Tpde.Target.A64

open Tpde.Assembler Branches FunctionWriterA64

/-! ### The model -/

/-- `Jump`, with its kind and the register and the bit that it tests. -/
inductive Jump where
  | jeq | jne | jcs | jcc | jmi | jpl | jvs | jvc | jhi | jls | jge | jlt | jgt | jle
  | jmp
  | cbz (reg : ℕ) (is32 : Bool)
  | cbnz (reg : ℕ) (is32 : Bool)
  | tbz (reg : ℕ) (testBit : Fin 64)
  | tbnz (reg : ℕ) (testBit : Fin 64)
  deriving DecidableEq, Repr

namespace Jump

/-- The instruction that branches where the jump goes. -/
def test : Jump → Test
  | jeq => .cond .eq
  | jne => .cond .ne
  | jcs => .cond .cs
  | jcc => .cond .cc
  | jmi => .cond .mi
  | jpl => .cond .pl
  | jvs => .cond .vs
  | jvc => .cond .vc
  | jhi => .cond .hi
  | jls => .cond .ls
  | jge => .cond .ge
  | jlt => .cond .lt
  | jgt => .cond .gt
  | jle => .cond .le
  | jmp => .always
  | cbz reg is32 => .zero is32 reg
  | cbnz reg is32 => .nonzero is32 reg
  | tbz reg testBit => .bitClear reg testBit
  | tbnz reg testBit => .bitSet reg testBit

/-- The instruction that branches over a branch, with `cond_compl`. -/
def complTest : Jump → Test
  | jeq => .cond .ne
  | jne => .cond .eq
  | jcs => .cond .cc
  | jcc => .cond .cs
  | jmi => .cond .pl
  | jpl => .cond .mi
  | jvs => .cond .vc
  | jvc => .cond .vs
  | jhi => .cond .ls
  | jls => .cond .hi
  | jge => .cond .lt
  | jlt => .cond .ge
  | jgt => .cond .le
  | jle => .cond .gt
  | jmp => .always
  | cbz reg is32 => .nonzero is32 reg
  | cbnz reg is32 => .zero is32 reg
  | tbz reg testBit => .bitSet reg testBit
  | tbnz reg testBit => .bitClear reg testBit

/-- How far back the one instruction is used. -/
def reach : Jump → ℕ
  | tbz .. | tbnz .. => 32 * 1024
  | _ => 1024 * 1024

/-- The fixup for a label that is not placed. -/
def fixupKind : Jump → FixupKind
  | jmp => .br
  | tbz .. | tbnz .. => .testBr
  | _ => .condBr

end Jump

section
variable {Op : Type}

/-- The distance to a label that is placed. -/
def labelDist (w : FunctionWriterA64 Op) (labelOff : ℕ) : Option ℕ :=
  if labelOff ≤ w.offset ∧ (w.offset - labelOff) % 4 = 0 ∧ w.offset - labelOff < 128 * 1024 * 1024 then
    some (w.offset - labelOff)
  else none

/-- A branch to a label that may not be placed. -/
def shortJump (w : FunctionWriterA64 Op) (jump : Jump) (label : ℕ) (isPending : Bool) (off : ℕ) :
    Option (FunctionWriterA64 Op) := do
  let w ← w.branchUnchecked jump.test (-(off : ℤ) / 4)
  if isPending then w.labelRef label (w.offset - 4) jump.fixupKind else some w

/-- `generate_raw_jump`. -/
def generateRawJump (w : FunctionWriterA64 Op) (jump : Jump) (label : ℕ) : Option (FunctionWriterA64 Op) := do
  let labelOff ← w.labelOffsets[label]?
  let w ← w.ensureSpace 4
  let off ← match labelOff with
    | none => some 0
    | some labelOff => labelDist w labelOff
  if jump = .jmp ∨ off ≤ jump.reach then shortJump w jump label labelOff.isNone off
  else
    let w ← w.ensureSpace (2 * 4)
    let w ← w.branchUnchecked jump.complTest 2
    w.branchUnchecked .always (-(off + 4 : ℤ) / 4)

/-! ### What a jump should do -/

/-- The text that was written goes to the label where the test of the jump holds, and otherwise on
behind it. -/
def JumpsTo (w w' : FunctionWriterA64 Op) (jump : Jump) (labelOff : ℕ) : Prop :=
  ∀ s : Cpu, Leads w'.code s w.offset w'.offset w.offset (if jump.test.holds s then labelOff else w'.offset)

/-- The label of a jump that needs two instructions is out of reach, there is room for one of them, and
the room for both takes veneers. -/
def MissesLabel (w : FunctionWriterA64 Op) (jump : Jump) (labelOff : ℕ) : Prop :=
  jump ≠ .jmp ∧ jump.reach < w.offset - labelOff ∧ 4 ≤ w.allocatedSize - w.offset ∧
    w.allocatedSize - w.offset < 2 * 4 ∧
    (w.grown (2 * 4)).NeedsVeneers

/-! ### The parts of a jump -/

theorem Jump.holds_complTest {jump : Jump} (h : jump ≠ .jmp) (s : Cpu) :
    jump.complTest.holds s = !jump.test.holds s := by
  cases jump <;> simp_all [Jump.test, Jump.complTest, Test.holds, Cond.holds]

theorem Jump.fits_short {jump : Jump} {off : ℕ} (hoff : off % 4 = 0)
    (h : jump = .jmp ∧ off < 128 * 1024 * 1024 ∨ off ≤ jump.reach) :
    Fits jump.test.bits (-(off : ℤ) / 4) := by
  cases jump <;> simp only [Jump.test, Jump.reach, Test.bits, Fits, reduceCtorEq, false_and, false_or,
    true_and] at h ⊢ <;> omega

variable {w w₁ : FunctionWriterA64 Op} {jump : Jump} {label labelOff : ℕ}

/-- One branch to a label that is placed. -/
theorem shortJump_jumpsTo (jump : Jump) (label : ℕ) (hle : labelOff ≤ w.offset)
    (halign : (w.offset - labelOff) % 4 = 0) (hroom : w.offset + 4 ≤ w.allocatedSize)
    (h : jump = .jmp ∧ w.offset - labelOff < 128 * 1024 * 1024 ∨ w.offset - labelOff ≤ jump.reach) :
    ∃ w', shortJump w jump label false (w.offset - labelOff) = some w' ∧ JumpsTo w w' jump labelOff ∧
      w.offset < w'.offset ∧
      ∀ p < w.offset, w'.code p = w.code p := by
  refine ⟨{ w with
    code := Function.update w.code w.offset (.branch jump.test (-((w.offset - labelOff : ℕ) : ℤ) / 4))
    offset := w.offset + 4 }, ?_, fun s => ?_, ?_, fun p hp => ?_⟩
  · rw [shortJump, branchUnchecked_eq (Jump.fits_short halign h) hroom]
    rfl
  · refine .last le_rfl (Nat.lt_add_of_pos_right (by decide)) ?_
    dsimp only
    rw [Function.update_self, next]
    congr 1
    split <;> push_cast <;> omega
  · exact Nat.lt_add_of_pos_right (by decide)
  · exact Function.update_of_ne hp.ne ..

/-- The complementary branch, and a branch to a label that is placed `off` bytes before them. -/
theorem longJump_eq (jump : Jump) {off : ℕ} (hoff : off < 128 * 1024 * 1024) (halign : off % 4 = 0)
    (hroom : w.offset + 8 ≤ w.allocatedSize) :
    ∃ w',
      (do let w ← w.branchUnchecked jump.complTest 2; w.branchUnchecked .always (-(off + 4 : ℤ) / 4)) =
      some w' ∧
      w'.offset = w.offset + 8 ∧ w'.code w.offset = .branch jump.complTest 2 ∧
      w'.code (w.offset + 4) = .branch .always (-(off + 4 : ℤ) / 4) ∧ ∀ p < w.offset,
        w'.code p = w.code p := by
  have hcompl : Fits jump.complTest.bits 2 := by cases jump <;> simp [Jump.complTest, Fits, Test.bits]
  have hback : Fits Test.always.bits (-(off + 4 : ℤ) / 4) := by
    simp only [Fits, Test.bits]
    omega
  refine ⟨{ w with
    code := Function.update (Function.update w.code w.offset (.branch jump.complTest 2)) (w.offset + 4)
      (.branch .always (-(off + 4 : ℤ) / 4))
    offset := w.offset + 4 + 4 }, ?_, ?_, ?_, ?_, fun p hp => ?_⟩
  · rw [branchUnchecked_eq hcompl (by omega), Option.bind_eq_bind, Option.bind_some, branchUnchecked_eq hback]
    exact Nat.le_trans (Nat.le_of_eq (Nat.add_assoc ..)) hroom
  · exact Nat.add_assoc ..
  · dsimp only
    rw [Function.update_of_ne (by omega), Function.update_self]
  · exact Function.update_self ..
  · dsimp only
    rw [Function.update_of_ne (by omega), Function.update_of_ne (by omega)]

/-! ### Jumps to a label behind them -/

/-- A label that is placed behind a jump, and the writer where there is room for one instruction. The
unresolved branches are words of the text. -/
structure Behind (w w₁ : FunctionWriterA64 Op) (label labelOff : ℕ) : Prop where
  label : w.labelOffsets[label]? = some (some labelOff)
  le : labelOff ≤ w.offset
  align : (w.offset - labelOff) % 4 = 0
  branches : w.veneerSize ≤ w.offset
  space : w.ensureSpace 4 = some w₁
  dist : w₁.offset - labelOff < 128 * 1024 * 1024

namespace Behind

theorem offset_le (h : Behind w w₁ label labelOff) : w.offset ≤ w₁.offset ∧
    (w₁.offset - w.offset) % 4 = 0 := by
  obtain ⟨-, ⟨-, hoff, -, -⟩ | ⟨-, rfl⟩⟩ := ensureSpace_cases h.space
  · omega
  · simp only [addVeneers, grown, offset_grow, veneerSize]
    omega

theorem branches₁ (h : Behind w w₁ label labelOff) : w₁.veneerSize ≤ w₁.offset := by
  have hbranches := h.branches
  obtain ⟨-, ⟨-, hoff, -, hsize⟩ | ⟨-, rfl⟩⟩ := ensureSpace_cases h.space
  · omega
  · exact Nat.zero_le _

theorem align₁ (h : Behind w w₁ label labelOff) : labelOff ≤ w₁.offset ∧ (w₁.offset - labelOff) % 4 = 0 := by
  have := h.offset_le
  have := h.le
  have := h.align
  omega

theorem labelDist_eq (h : Behind w w₁ label labelOff) :
    labelDist w₁ labelOff = some (w₁.offset - labelOff) := by
  rw [labelDist, if_pos ⟨h.align₁.1, h.align₁.2, h.dist⟩]

/-- What jumps from where there is room also jumps from in front of the veneers. -/
theorem jumpsTo (h : Behind w w₁ label labelOff) {w' : FunctionWriterA64 Op}
    (hcode : ∀ p < w₁.offset, w'.code p = w₁.code p)
    (hgt : w₁.offset < w'.offset) (hjumps : JumpsTo w₁ w' jump labelOff) : JumpsTo w w' jump labelOff := by
  have hle := h.le
  have hdist := h.dist
  exact fun s => ensureSpace_leads h.space (by omega) hcode hgt (hjumps s)

/-- A jump with one instruction. -/
theorem generateRawJump_short (h : Behind w w₁ label labelOff)
    (hshort : jump = .jmp ∨ w₁.offset - labelOff ≤ jump.reach) :
    ∃ w', generateRawJump w jump label = some w' ∧ JumpsTo w w' jump labelOff := by
  have hroom := ensureSpace_room h.space h.branches (by decide)
  obtain ⟨w', hw', hjumps, hgt, hcode⟩ := shortJump_jumpsTo jump label h.align₁.1 h.align₁.2 hroom
    (hshort.imp_left fun hjmp => ⟨hjmp, h.dist⟩)
  refine ⟨w', ?_, h.jumpsTo hcode hgt hjumps⟩
  rw [generateRawJump, h.label, Option.bind_eq_bind, Option.bind_some, h.space, Option.bind_eq_bind,
    Option.bind_some]
  dsimp only
  rw [h.labelDist_eq, Option.bind_eq_bind, Option.bind_some, if_pos hshort]
  exact hw'

/-- The text of a jump with two instructions. -/
theorem generateRawJump_long {w₂ : FunctionWriterA64 Op} (h : Behind w w₁ label labelOff)
    (hfar : ¬ (jump = .jmp ∨ w₁.offset - labelOff ≤ jump.reach)) (hw₂ : w₁.ensureSpace (2 * 4) = some w₂) :
    ∃ w', generateRawJump w jump label = some w' ∧ w'.offset = w₂.offset + 8 ∧
      w'.code w₂.offset = .branch jump.complTest 2 ∧
      w'.code (w₂.offset + 4) = .branch .always (-((w₁.offset - labelOff : ℕ) + 4 : ℤ) / 4) ∧
      ∀ p < w₂.offset, w'.code p = w₂.code p := by
  have hroom : w₂.offset + 8 ≤ w₂.allocatedSize := ensureSpace_room hw₂ h.branches₁ (by decide)
  obtain ⟨w', hw', hrest⟩ := longJump_eq jump h.dist h.align₁.2 hroom
  refine ⟨w', ?_, hrest⟩
  rw [generateRawJump, h.label, Option.bind_eq_bind, Option.bind_some, h.space, Option.bind_eq_bind,
    Option.bind_some]
  dsimp only
  rw [h.labelDist_eq, Option.bind_eq_bind, Option.bind_some, if_neg hfar, hw₂, Option.bind_some]
  exact hw'

/-- A jump with two instructions that has room for both. -/
theorem jumpsTo_of_room {w₂ w' : FunctionWriterA64 Op} (h : Behind w w₁ label labelOff) (hne : jump ≠ .jmp)
    (hoff₂ : w₂.offset = w₁.offset) (hcode₂ : w₂.code = w₁.code) (hoff : w'.offset = w₂.offset + 8)
    (hcompl : w'.code w₂.offset = .branch jump.complTest 2)
    (hback : w'.code (w₂.offset + 4) = .branch .always (-((w₁.offset - labelOff : ℕ) + 4 : ℤ) / 4))
    (hcode : ∀ p < w₂.offset, w'.code p = w₂.code p) : JumpsTo w w' jump labelOff := by
  rw [hoff₂] at hoff hcompl hback hcode
  refine h.jumpsTo (fun p hp => by rw [hcode p hp, hcode₂]) (by omega) fun s => ?_
  have hcompl' := Jump.holds_complTest hne s
  cases htest : jump.test.holds s with
  | true =>
    have halign := h.align₁
    have hfirst : next s w₁.offset (w'.code w₁.offset) = some ((w₁.offset + 4 : ℕ) : ℤ) := by
      rw [hcompl, next, hcompl', htest]
      rfl
    refine .step le_rfl (by omega) hfirst (.last (by omega) (by omega) ?_)
    rw [hback]
    show some ((w₁.offset + 4 : ℕ) + 4 * (-((w₁.offset - labelOff : ℕ) + 4 : ℤ) / 4)) = some (labelOff : ℤ)
    congr 1
    omega
  | false =>
    refine .last le_rfl (by omega) ?_
    rw [hcompl, next, hcompl', htest, hoff]
    rfl

/-- Where the room for one instruction was made just now, there is room for two. -/
theorem missesLabel_iff (h : Behind w w₁ label labelOff) :
    MissesLabel w jump labelOff ↔ jump ≠ .jmp ∧ jump.reach < w₁.offset - labelOff ∧ w₁.Inserts (2 * 4) := by
  have hbranches := h.branches
  obtain ⟨hle, hspace⟩ := Option.ite_none_left_eq_some.mp h.space
  split at hspace
  · rename_i hfull
    obtain ⟨hsmall, hspace⟩ := moreSpace_cases hspace
    refine iff_of_false (fun hmiss => absurd hmiss.2.2.1 (not_le.mpr hfull)) fun hmiss => ?_
    obtain ⟨-, -, hroom, hneeds⟩ := hmiss
    have hgrow := w.allocatedSize_grow ((4 + w.veneerSize + 4) % 2 ^ 32)
    rcases hspace with ⟨-, rfl⟩ | ⟨-, rfl⟩
    · exact hneeds.1 (veneerSize_grow ..)
    · simp only [grown, offset_grow] at hroom
      omega
  · rename_i hroom
    obtain rfl := Option.some.inj hspace
    exact and_congr_right fun _ => and_congr_right fun _ => and_iff_right (not_lt.mp hroom)

/-- **A jump misses its label** if the room for its second instruction takes veneers. -/
theorem generateRawJump_misses (h : Behind w w₁ label labelOff) (hspace : (w₁.ensureSpace (2 * 4)).isSome)
    (hmiss : MissesLabel w jump labelOff) : ∃ w', generateRawJump w jump label = some w' ∧
      ¬ JumpsTo w w' jump labelOff := by
  obtain ⟨hne, hreach, hins⟩ := h.missesLabel_iff.mp hmiss
  obtain ⟨w₂, hw₂⟩ := Option.isSome_iff_exists.mp hspace
  obtain ⟨w', hw', hoff', hcompl, hback, hcode⟩ :=
    h.generateRawJump_long (not_or.mpr ⟨hne, not_le.mpr hreach⟩) hw₂
  refine ⟨w', hw', fun hjumps => ?_⟩
  -- The writer has no room, so the first instruction took no veneers.
  obtain ⟨-, ⟨-, hoff₁, -, -⟩ | ⟨-, rfl⟩⟩ := ensureSpace_cases h.space
  · obtain ⟨-, ⟨hnot, -⟩ | ⟨-, rfl⟩⟩ := ensureSpace_cases hw₂
    · exact hnot hins
    · obtain ⟨s, hs⟩ := jump.test.exists_holds
      obtain ⟨p, hmod, hlo, hhi, hnext⟩ := (hjumps s).exists_next
      rw [if_pos hs] at hnext
      simp only [addVeneers, grown, offset_grow, veneerSize_grow, code_grow] at hoff' hcompl hback hcode
      have hcompl' := Jump.holds_complTest hne s
      have hvs : w₁.veneerSize % 4 = 0 := Nat.mul_mod_right ..
      have halign := h.align₁
      rcases Nat.lt_trichotomy p (w₁.offset + w₁.veneerSize + 4) with hlt | rfl | hgt
      · rw [hcode p hlt, writeAt_apply, if_pos (by omega)] at hnext
        have hidx : (p - w₁.offset) / 4 < (veneerArea w₁.veneerSize : List (Branches.Inst Op)).length := by
          rw [length_veneerArea]
          omega
        rw [List.getElem?_eq_getElem hidx, Option.getD_some] at hnext
        have := next_veneerArea (List.getElem_mem hidx) hnext
        omega
      · rw [hcompl, next, hcompl', hs] at hnext
        have := Option.some.inj hnext
        simp only [Bool.not_true, Bool.false_eq_true, if_false] at this
        omega
      · have hp : p = w₁.offset + w₁.veneerSize + 4 + 4 := by omega
        rw [hp, hback] at hnext
        have := Option.some.inj hnext
        rw [if_pos (by rfl)] at this
        omega
  · exact hins.2.1 (veneerSize_grow ..)

end Behind

/-- **When `generate_raw_jump` jumps to a label**: a label that is placed less than 128 MiB behind is
where every kind of jump goes to, and a jump that does not hold goes on behind what was written, if and
only if the room for a second instruction takes no veneers. -/
theorem generateRawJump_iff (h : Behind w w₁ label labelOff) (hspace : (w₁.ensureSpace (2 * 4)).isSome) :
    ∃ w', generateRawJump w jump label = some w' ∧
      (JumpsTo w w' jump labelOff ↔ ¬ MissesLabel w jump labelOff) := by
  by_cases hmiss : MissesLabel w jump labelOff
  · obtain ⟨w', hw', hnot⟩ := h.generateRawJump_misses hspace hmiss
    exact ⟨w', hw', iff_of_false hnot (not_not.mpr hmiss)⟩
  by_cases hshort : jump = .jmp ∨ w₁.offset - labelOff ≤ jump.reach
  · obtain ⟨w', hw', hjumps⟩ := h.generateRawJump_short hshort
    exact ⟨w', hw', iff_of_true hjumps hmiss⟩
  · obtain ⟨hne, hfar⟩ := not_or.mp hshort
    obtain ⟨w₂, hw₂⟩ := Option.isSome_iff_exists.mp hspace
    obtain ⟨w', hw', hoff, hcompl, hback, hcode⟩ := h.generateRawJump_long hshort hw₂
    refine ⟨w', hw', iff_of_true ?_ hmiss⟩
    obtain ⟨-, ⟨-, hoff₂, hcode₂, -⟩ | ⟨hins, -⟩⟩ := ensureSpace_cases hw₂
    · exact h.jumpsTo_of_room hne hoff₂ hcode₂ hoff hcompl hback hcode
    · exact absurd (h.missesLabel_iff.mpr ⟨hne, not_le.mp hfar, hins⟩) hmiss

end

/-! ### A jump over 40000 bytes -/

/-- A writer with room for one more instruction, a label at the start and a branch on a bit that is not
resolved. -/
def fullWriter (space : ℕ) : FunctionWriterA64 Unit where
  code _ := .op ()
  offset := 40000
  allocatedSize := 40000 + space
  capacity := 40000 + space
  growthSize := 0x10000
  labelOffsets := [some 0, none]
  labelFixups := [⟨1, 39996, .testBr⟩]
  veneers := []
  unresolvedCondBrs := 0
  unresolvedTestBrs := 1

theorem behind_fullWriter {space : ℕ} (h : 4 ≤ space) : Behind (fullWriter space) (fullWriter space) 0 0 :=
  ⟨rfl, Nat.zero_le _, by simp [fullWriter], by simp [veneerSize, fullWriter],
    by simp [ensureSpace, fullWriter, h], by simp [fullWriter]⟩

/-- **A jump that misses its label**, by the 8 bytes that the branch over the veneer and the veneer take. -/
theorem fullWriter_misses : ∃ w', generateRawJump (fullWriter 4) (.tbz 0 0) 0 = some w' ∧
    ¬ JumpsTo (fullWriter 4) w' (.tbz 0 0) 0 := by
  refine (behind_fullWriter le_rfl).generateRawJump_misses (by decide +kernel)
    ⟨by decide, by decide +kernel, by decide +kernel, by decide +kernel, ?_⟩
  decide +kernel

/-- The same jump with room for two instructions. -/
theorem fullWriter_jumps : ∃ w', generateRawJump (fullWriter 8) (.tbz 0 0) 0 = some w' ∧
    JumpsTo (fullWriter 8) w' (.tbz 0 0) 0 := by
  have hbehind : Behind (fullWriter 8) (fullWriter 8) 0 0 := behind_fullWriter (by decide)
  obtain ⟨w', hw', hiff⟩ := @generateRawJump_iff _ _ _ (.tbz 0 0) _ _ hbehind (by decide +kernel)
  refine ⟨w', hw', hiff.mpr fun hmiss => ?_⟩
  have hroom : ¬ (fullWriter 8).allocatedSize - (fullWriter 8).offset < 2 * 4 := by decide +kernel
  exact hroom hmiss.2.2.2.1

end Tpde.Target.A64
