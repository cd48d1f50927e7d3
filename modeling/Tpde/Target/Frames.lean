import Tpde.Compiler.StackSlots
import Tpde.Target.EpilogueX64
import Tpde.Target.ReturnSites

/-!
# Frames

On both targets the epilogues of a function undo its prologue if the frame size has an encoding.
On AArch64 also no branch may need a slot of an area for veneers that an epilogue has been written
over. No stack slot lies in the area that the prologue saves registers to.
-/

namespace Tpde.Target

open Compiler

/-- The bytes of a slot, from the frame pointer, are none of the `size` bytes from `lo` on. -/
def SlotApart (framePtr lo : BitVec 64) (size : ℕ) (x : ℤ × ℕ) : Prop :=
  ∀ k, InSlot x k → ∀ i < size, framePtr + BitVec.ofInt 64 k ≠ lo + BitVec.ofNat 64 i

namespace A64

/-- `stack.frame_size` when the prologue has reserved its area. -/
def reservedSize (vararg : Bool) : ℕ := if vararg then varArgFrameSize else startFrameSize

/-- The epilogues of a function undo its prologue if and only if its frame size has an encoding and its
branches can be filled in, which is known from the calls that write it and the size of its epilogues. -/
def EpiloguesUndo (Body : Type) : Prop :=
  ∀ (w : Assembler.FunctionWriterA64 (TextOp Body)) (expectedSize : ℕ) (dynAlloca : Bool)
    (f : Func Body) (calls : List (FuncCall Body)) (f' : Func Body) (clobbered : BitVec 64)
    (frameSize : ℕ), beginFunc w expectedSize dynAlloca = some f →
    calls.foldlM FuncCall.exec f = some f' →
    let p := planOf w expectedSize dynAlloca calls
    f'.Undone clobbered frameSize dynAlloca ↔ finalFrameSize frameSize < 16 * 1024 * 1024 ∧
      ∀ x ∈ p.branches, p.Fixable (4 * (epilogue clobbered frameSize dynAlloca).length) x

/-- The slots of every function are apart from its save area if its requests are `ok`. -/
def SlotsApart (ok : StackFrame → ℕ → Prop) : Prop :=
  ∀ (vararg : Bool) (r : SlotRun) (framePtr : BitVec 64),
    Relation.ReflTransGen (SlotStep false ok) ⟨.init (reservedSize vararg), []⟩ r →
    ∀ x ∈ r.live, SlotApart framePtr framePtr startFrameSize x

end A64

namespace X64

/-- `stack.frame_size` when the prologue has reserved its area. -/
def reservedSize (vararg : Bool) : ℕ := if vararg then regSaveFrameOff else startFrameSize

/-- The epilogues of a function undo its prologue if and only if its frame size has an encoding. -/
def EpiloguesUndo (Body : Type) : Prop :=
  ∀ (code : ℕ → Cell Body) (offset : ℕ) (calls : List (FuncCall Body)) (clobbered : BitVec 64)
    (frameSize : ℕ) (dynAlloca : Bool),
    (calls.foldl FuncCall.exec (genFuncProlog code offset)).Undone clobbered frameSize dynAlloca ↔
      finalFrameSize clobbered frameSize < 2 ^ 31

/-- The slots of every function are apart from the registers that it pushes, and from the frame pointer
and the return address above them, if its requests are `ok`. -/
def SlotsApart (ok : StackFrame → ℕ → Prop) : Prop :=
  ∀ (vararg : Bool) (r : SlotRun) (clobbered framePtr : BitVec 64),
    Relation.ReflTransGen (SlotStep true ok) ⟨.init (reservedSize vararg), []⟩ r → ∀ x ∈ r.live,
      SlotApart framePtr (framePtr - BitVec.ofNat 64 ((savedRegs clobbered).length * 8))
        ((savedRegs clobbered).length * 8 + 16) x

end X64

/-! ### Slots -/

section
variable {neg : Bool} {reserved : ℕ} {r : SlotRun} {framePtr lo : BitVec 64} {size : ℕ}

/-- Where the bytes of slots are. -/
theorem slot_bounds (hr : 0 < reserved) (hr' : reserved ≤ 2 ^ 31)
    (h : Relation.ReflTransGen (SlotStep neg Fits) ⟨.init reserved, []⟩ r) {x : ℤ × ℕ} (hx : x ∈ r.live)
    {k : ℤ} (hk : InSlot x k) :
    if neg then -2 ^ 31 ≤ k ∧ k < -reserved else reserved ≤ k ∧ k < 2 ^ 31 := by
  have hinv := RunInv.of_run hr hr' h
  have hle := hinv.slots.le
  obtain ⟨hin, hnot⟩ := hinv.ok.inside x hx k hk
  unfold InFrame at hin hnot
  cases neg <;> simp only [Bool.false_eq_true, if_false, if_true] at hin hnot ⊢ <;> omega

end

theorem A64.slotsApart : A64.SlotsApart Fits := by
  intro vararg r framePtr h x hx k hk i hi
  have hreserved : startFrameSize ≤ reservedSize vararg ∧ reservedSize vararg ≤ 2 ^ 31 := by
    cases vararg <;> decide
  obtain ⟨hlo, hhi⟩ := slot_bounds (by unfold startFrameSize at hreserved; omega) hreserved.2 h hx hk
  obtain ⟨n, rfl⟩ := Int.eq_ofNat_of_zero_le (by omega : 0 ≤ k)
  have hstart : startFrameSize = 160 := by decide
  rw [BitVec.ofInt_natCast]
  bv_omega

theorem X64.slotsApart : X64.SlotsApart Fits := by
  intro vararg r clobbered framePtr h x hx k hk i hi
  have hlen := length_savedRegs clobbered
  have hreserved : 40 ≤ reservedSize vararg ∧ reservedSize vararg ≤ 2 ^ 31 := by
    cases vararg <;> decide +kernel
  obtain ⟨hlo, hhi⟩ := slot_bounds (by omega) hreserved.2 h hx hk
  obtain ⟨n, hn⟩ := Int.eq_ofNat_of_zero_le (by omega : 0 ≤ -k)
  obtain rfl : k = -n := by omega
  rw [BitVec.ofInt_neg, BitVec.ofInt_natCast]
  bv_omega

/-! ### Frames -/

/-- **When epilogues undo prologues**: on x86-64 if and only if the frame is smaller than 2 GiB, on
AArch64 if and only if it is smaller than 16 MiB and no branch needs a slot that an epilogue has been
written to. Slots are apart from the saved registers as long as the frame has room for them. -/
theorem epilogues_undo (Body : Type) : A64.EpiloguesUndo Body ∧ X64.EpiloguesUndo Body ∧
    A64.SlotsApart Fits ∧ X64.SlotsApart Fits :=
  ⟨fun _ _ _ _ _ _ _ _ hbegin hrun => A64.undone_iff_of_run hbegin hrun,
    fun code offset calls _ _ _ => X64.undone_iff_of_run code offset calls, A64.slotsApart, X64.slotsApart⟩

/-- A function of one return, on AArch64. -/
theorem epilogues_undo_oneReturn : ∃ f f', A64.beginFunc A64.fullText 0x60 false = some f ∧
    [A64.FuncCall.genFuncEpilog].foldlM A64.FuncCall.exec f = some f' ∧
      f'.Undone 0 A64.startFrameSize false := by
  obtain ⟨f', hf', -⟩ : ∃ f', (A64.beginFunc A64.fullText 0x60 false).bind
        (fun f => [A64.FuncCall.genFuncEpilog].foldlM A64.FuncCall.exec f) = some f' ∧
      f'.funcRetOffs = [0x10030] := Option.map_eq_some_iff.mp (by decide +kernel)
  obtain ⟨f, hf, hrun⟩ := Option.bind_eq_some_iff.mp hf'
  exact ⟨f, f', hf, hrun,
    ((epilogues_undo Unit).1 _ _ _ _ _ _ 0 A64.startFrameSize hf hrun).mpr ⟨by decide +kernel, nofun⟩⟩

/-- An epilogue over an area for veneers, and a request for a slot that is rounded up to nothing. -/
theorem epilogues_undo_fails : (∃ f f', A64.beginFunc A64.fullText 0x60 false = some f ∧
      A64.returnOverArea.foldlM A64.FuncCall.exec f = some f' ∧ ¬ f'.Undone 0 A64.startFrameSize false) ∧
    ¬ X64.SlotsApart (fun _ _ => True) := by
  refine ⟨A64.not_undone_returnOverArea 0 A64.startFrameSize, fun h => ?_⟩
  have hapart :=
    h false _ 0 0 (.single (@SlotStep.allocate _ _ _ 0xFFFFFFFF (by decide) trivial)) _ List.mem_cons_self 0
  have hslot : (allocateStackSlot true (.init (X64.reservedSize false)) 0xFFFFFFFF).2 = -48 := by
    decide +kernel
  refine hapart ?_ 0 (by omega) (by decide +kernel)
  rw [hslot]
  constructor <;> norm_num

end Tpde.Target
