import Tpde.Library.Branches
import Mathlib.Logic.Function.Basic

/-!
# The function writer of AArch64

`FunctionWriterA64` writes the text of a function into its section. Branches to labels that
are not placed yet are fixed at the end of the function. Conditional branches do not reach
far: when the writer needs more space it may leave an area for veneers, with one slot for
each such branch, and a branch over it.
-/

namespace Tpde.Assembler

open Branches

/-- `LabelFixupKind` of AArch64. -/
inductive FixupKind where
  | br
  | condBr
  | testBr
  | jumpTable
  deriving DecidableEq, Repr

/-- `LabelFixup`. -/
structure LabelFixup where
  label : ℕ
  off : ℕ
  kind : FixupKind
  deriving DecidableEq, Repr

/-- The writer: its text by offset into the section, where it writes, and how much is allocated. -/
structure FunctionWriterA64 (Op : Type) where
  code : ℕ → Inst Op
  offset : ℕ
  allocatedSize : ℕ
  capacity : ℕ
  growthSize : ℕ
  labelOffsets : List (Option ℕ)
  labelFixups : List LabelFixup
  veneers : List ℕ
  unresolvedCondBrs : ℕ
  unresolvedTestBrs : ℕ

namespace FunctionWriterA64

variable {Op : Type}

/-! ### Space -/

/-- `SmallVector::reserve`, as the new capacity. -/
def reserve (cap newCap : ℕ) : ℕ := if cap < newCap then max (2 * cap + 1) newCap else cap

/-- `FunctionWriter::more_space`. -/
def grow (w : FunctionWriterA64 Op) (size : ℕ) : FunctionWriterA64 Op :=
  if w.allocatedSize + size ≤ w.capacity then { w with allocatedSize := w.capacity }
  else
    let newSize := w.allocatedSize + if size ≤ w.growthSize then w.growthSize else size
    { w with
      allocatedSize := newSize
      capacity := reserve w.capacity newSize
      growthSize := min (w.growthSize + w.growthSize / 2) 0x1000000 }

/-- The bytes of a veneer for each unresolved branch. -/
def veneerSize (w : FunctionWriterA64 Op) : ℕ := 4 * (w.unresolvedTestBrs + w.unresolvedCondBrs)

/-- `max_dist`, in 32 bits. -/
def maxDist (w : FunctionWriterA64 Op) : ℕ :=
  ((if w.unresolvedTestBrs ≠ 0 then 4 * 2 ^ 13 else 4 * 2 ^ 18) + 2 ^ 32 - w.veneerSize % 2 ^ 32) % 2 ^ 32

/-- `first_condbr`. -/
def firstCondbr (w : FunctionWriterA64 Op) : ℕ := w.veneers.getLast?.getD 0

/-- Some unresolved branch may not reach the end of what is allocated. -/
def NeedsVeneers (w : FunctionWriterA64 Op) : Prop :=
  w.veneerSize ≠ 0 ∧ ¬ (w.firstCondbr + w.maxDist) % 2 ^ 32 > w.allocatedSize

instance (w : FunctionWriterA64 Op) : Decidable w.NeedsVeneers := inferInstanceAs (Decidable (_ ∧ _))

/-- A branch over `size` bytes of veneers, and the veneers. -/
def veneerArea (size : ℕ) : List (Inst Op) :=
  (encode .always (size / 4 + 1 : ℕ)).getD (.data 0) :: List.replicate (size / 4) (.data 0)

/-- Words that are written at an offset. -/
def writeAt (code : ℕ → Inst Op) (off : ℕ) : List (Inst Op) → ℕ → Inst Op
  | [] => code
  | i :: is => writeAt (Function.update code off i) (off + 4) is

/-- An area for veneers. -/
def addVeneers (w : FunctionWriterA64 Op) : FunctionWriterA64 Op := { w with
  code := writeAt w.code w.offset (veneerArea w.veneerSize)
  veneers := w.veneers ++ [w.offset + 4]
  unresolvedTestBrs := 0
  unresolvedCondBrs := 0
  offset := w.offset + w.veneerSize + 4 }

/-- The writer with room for `size` bytes and the veneers, which are added up in 32 bits. -/
def grown (w : FunctionWriterA64 Op) (size : ℕ) : FunctionWriterA64 Op :=
  w.grow ((size + w.veneerSize + 4) % 2 ^ 32)

/-- `more_space`. Sections of 128 MiB and more are not supported, and an area is not written beyond what is
allocated. -/
def moreSpace (w : FunctionWriterA64 Op) (size : ℕ) : Option (FunctionWriterA64 Op) :=
  if 128 * 1024 * 1024 ≤ w.allocatedSize then none
  else if (w.grown size).NeedsVeneers then
    if w.offset + w.veneerSize + 4 ≤ (w.grown size).allocatedSize then some (w.grown size).addVeneers
    else none
  else some (w.grown size)

/-- `ensure_space`. -/
def ensureSpace (w : FunctionWriterA64 Op) (size : ℕ) : Option (FunctionWriterA64 Op) :=
  if w.allocatedSize < w.offset then none
  else if w.allocatedSize - w.offset < size then w.moreSpace size else some w

/-! ### Text and labels -/

/-- `write_unchecked`. -/
def writeUnchecked (w : FunctionWriterA64 Op) (i : Inst Op) : Option (FunctionWriterA64 Op) :=
  if w.offset + 4 ≤ w.allocatedSize then
    some { w with code := Function.update w.code w.offset i, offset := w.offset + 4 }
  else none

/-- `write_inst_unchecked`, with a branch. -/
def branchUnchecked (w : FunctionWriterA64 Op) (t : Test) (imm : ℤ) : Option (FunctionWriterA64 Op) := do
  w.writeUnchecked (← encode t imm)

/-- `label_create`, with the label. -/
def labelCreate (w : FunctionWriterA64 Op) : FunctionWriterA64 Op × ℕ :=
  ({ w with labelOffsets := w.labelOffsets ++ [none] }, w.labelOffsets.length)

/-- `label_place`. -/
def labelPlace (w : FunctionWriterA64 Op) (label off : ℕ) : Option (FunctionWriterA64 Op) :=
  if w.labelOffsets[label]? = some none then
    some { w with labelOffsets := w.labelOffsets.set label (some off) }
  else none

/-- `label_ref`. -/
def labelRef (w : FunctionWriterA64 Op) (label off : ℕ) (kind : FixupKind) : Option (FunctionWriterA64 Op) :=
  if w.labelOffsets[label]? = some none then
    some { w with
      labelFixups := w.labelFixups ++ [⟨label, off, kind⟩]
      unresolvedCondBrs := w.unresolvedCondBrs + if kind = .condBr then 1 else 0
      unresolvedTestBrs := w.unresolvedTestBrs + if kind = .testBr then 1 else 0 }
  else none

/-! ### What the writer does -/

section
variable {w w' : FunctionWriterA64 Op} {size : ℕ}

theorem allocatedSize_grow (w : FunctionWriterA64 Op) (size : ℕ) :
    w.allocatedSize + size ≤ (w.grow size).allocatedSize := by
  rw [grow]
  split
  · assumption
  · dsimp only
    split <;> omega

@[simp]
theorem offset_grow (w : FunctionWriterA64 Op) (size : ℕ) : (w.grow size).offset = w.offset := by
  rw [grow]
  split <;> rfl

@[simp]
theorem code_grow (w : FunctionWriterA64 Op) (size : ℕ) : (w.grow size).code = w.code := by
  rw [grow]
  split <;> rfl

@[simp]
theorem veneerSize_grow (w : FunctionWriterA64 Op) (size : ℕ) : (w.grow size).veneerSize = w.veneerSize := by
  rw [grow]
  split <;> rfl

@[simp]
theorem labelOffsets_grow (w : FunctionWriterA64 Op) (size : ℕ) :
    (w.grow size).labelOffsets = w.labelOffsets := by
  rw [grow]
  split <;> rfl

/-- Words are written where they should be, and nowhere else. -/
theorem writeAt_apply (code : ℕ → Inst Op) (off : ℕ) (is : List (Inst Op)) (p : ℕ) :
    writeAt code off is p = if off ≤ p ∧ (p - off) % 4 = 0 then (is[(p - off) / 4]?).getD (code p)
      else code p := by
  induction is generalizing code off with
  | nil => simp [writeAt]
  | cons i is ih =>
    rw [writeAt, ih]
    rcases Nat.lt_trichotomy p off with hlt | rfl | hgt
    · rw [if_neg (by omega), if_neg (by omega), Function.update_of_ne hlt.ne]
    · rw [if_neg (by omega), if_pos (by simp), Function.update_self]
      simp
    · rw [Function.update_of_ne hgt.ne']
      by_cases hmod : (p - off) % 4 = 0
      · have hidx : (p - off) / 4 = (p - (off + 4)) / 4 + 1 := by omega
        rw [if_pos (by omega), if_pos (by omega), hidx, List.getElem?_cons_succ]
      · rw [if_neg (by omega), if_neg (by omega)]

theorem writeAt_of_not_mem {code : ℕ → Inst Op} {off : ℕ} {is : List (Inst Op)} {p : ℕ}
    (h : p < off ∨ off + 4 * is.length ≤ p) :
    writeAt code off is p = code p := by
  rw [writeAt_apply]
  split
  · rw [List.getElem?_eq_none (by omega), Option.getD_none]
  · rfl

theorem writeAt_of_getElem? {code : ℕ → Inst Op} {off i : ℕ} {is : List (Inst Op)} {x : Inst Op}
    (h : is[i]? = some x) :
    writeAt code off is (off + 4 * i) = x := by
  have hidx : (off + 4 * i - off) / 4 = i := by omega
  rw [writeAt_apply, if_pos (by omega), hidx, h, Option.getD_some]

theorem length_veneerArea (size : ℕ) : (veneerArea size : List (Inst Op)).length = size / 4 + 1 := by
  simp [veneerArea]

/-- Control goes on from an area for veneers. -/
theorem next_veneerArea {s : Cpu} {pc size : ℕ} {i : Inst Op} {dest : ℤ} (hi : i ∈ veneerArea size)
    (h : next s pc i = some dest) :
    (pc : ℤ) < dest := by
  rw [veneerArea, List.mem_cons] at hi
  rcases hi with hi | hi
  · rw [hi, encode] at h
    split at h
    · have hdest : (pc : ℤ) + 4 * ((size / 4 + 1 : ℕ) : ℤ) = dest := Option.some.inj h
      omega
    · cases h
  · obtain ⟨-, rfl⟩ := List.mem_replicate.mp hi
    cases h

/-- More space inserts an area for veneers. -/
def Inserts (w : FunctionWriterA64 Op) (size : ℕ) : Prop := w.allocatedSize - w.offset < size ∧
    (w.grown size).NeedsVeneers

/-- What `more_space` does: more is allocated, and there may be an area of veneers. -/
theorem moreSpace_cases (h : w.moreSpace size = some w') :
    w.allocatedSize < 128 * 1024 * 1024 ∧
      ((w.grown size).NeedsVeneers ∧ w' = (w.grown size).addVeneers ∨
        ¬ (w.grown size).NeedsVeneers ∧ w' = w.grown size) := by
  obtain ⟨hsize, h⟩ := Option.ite_none_left_eq_some.mp h
  refine ⟨not_le.mp hsize, ?_⟩
  split at h
  · rename_i hneeds
    obtain ⟨-, h⟩ := Option.ite_none_right_eq_some.mp h
    exact .inl ⟨hneeds, (Option.some.inj h).symm⟩
  · rename_i hneeds
    exact .inr ⟨hneeds, (Option.some.inj h).symm⟩

/-- What `ensure_space` does: the text is the same but for an area of veneers. -/
theorem ensureSpace_cases (h : w.ensureSpace size = some w') : w'.labelOffsets = w.labelOffsets ∧
    (¬ w.Inserts size ∧ w'.offset = w.offset ∧ w'.code = w.code ∧ w'.veneerSize = w.veneerSize ∨
      w.Inserts size ∧ w' = (w.grown size).addVeneers) := by
  obtain ⟨-, h⟩ := Option.ite_none_left_eq_some.mp h
  split at h
  · rename_i hfull
    obtain ⟨-, ⟨hneeds, rfl⟩ | ⟨hneeds, rfl⟩⟩ := moreSpace_cases h
    · exact ⟨by simp [addVeneers, grown], .inr ⟨⟨hfull, hneeds⟩, rfl⟩⟩
    · exact ⟨by simp [grown],
        .inl ⟨fun hins => hneeds hins.2, by simp [grown], by simp [grown], by simp [grown]⟩⟩
  · rename_i hfull
    obtain rfl := Option.some.inj h
    exact ⟨rfl, .inl ⟨fun hins => hfull hins.1, rfl, rfl, rfl⟩⟩

/-- There is the room that was asked for, unless it is so much that it cannot be counted. -/
theorem ensureSpace_room (h : w.ensureSpace size = some w') (hbranches : w.veneerSize ≤ w.offset)
    (hsize : size < 2 ^ 31) : w'.offset + size ≤ w'.allocatedSize := by
  obtain ⟨hle, h⟩ := Option.ite_none_left_eq_some.mp h
  split at h
  · obtain ⟨hsmall, h⟩ := moreSpace_cases h
    have hroom := w.allocatedSize_grow ((size + w.veneerSize + 4) % 2 ^ 32)
    have hfits : (size + w.veneerSize + 4) % 2 ^ 32 = size + w.veneerSize + 4 := Nat.mod_eq_of_lt (by omega)
    rw [hfits] at hroom
    rcases h with ⟨-, rfl⟩ | ⟨-, rfl⟩
    · simp only [addVeneers, grown, offset_grow, veneerSize_grow, hfits]
      omega
    · simp only [grown, offset_grow, hfits]
      omega
  · obtain rfl := Option.some.inj h
    omega

/-- Control goes over the veneers. -/
theorem ensureSpace_leads {code : ℕ → Inst Op} {s : Cpu} {hi : ℕ} {dest : ℤ}
    (h : w.ensureSpace size = some w')
    (hfits : w'.offset < w.offset + 128 * 1024 * 1024) (hcode : ∀ p < w'.offset,
      code p = w'.code p) (hhi : w'.offset < hi)
    (hleads : Leads code s w'.offset hi w'.offset dest) : Leads code s w.offset hi w.offset dest := by
  obtain ⟨-, ⟨-, hoff, -, -⟩ | ⟨-, rfl⟩⟩ := ensureSpace_cases h
  · rwa [hoff] at hleads
  · simp only [addVeneers, grown, offset_grow, veneerSize_grow, code_grow] at hfits hcode hhi hleads
    have hdvd : w.veneerSize / 4 * 4 = w.veneerSize := by
      rw [veneerSize]
      omega
    have hfirst : code w.offset = .branch .always (w.veneerSize / 4 + 1 : ℕ) := by
      rw [hcode _ (by omega), writeAt_apply, if_pos (by omega)]
      have hbits : Fits Test.always.bits ((w.veneerSize / 4 + 1 : ℕ) : ℤ) := by
        simp only [Fits, Test.bits]
        omega
      rw [veneerArea, encode_eq hbits, Nat.sub_self]
      rfl
    refine .step le_rfl (by omega) ?_ (hleads.mono (by omega) le_rfl)
    rw [hfirst]
    show some ((w.offset : ℤ) + 4 * ((w.veneerSize / 4 + 1 : ℕ) : ℤ)) = _
    congr 1
    push_cast
    omega

theorem branchUnchecked_eq {t : Test} {imm : ℤ} (hfits : Fits t.bits imm)
    (hroom : w.offset + 4 ≤ w.allocatedSize) :
    w.branchUnchecked t imm =
      some { w with code := Function.update w.code w.offset (.branch t imm), offset := w.offset + 4 } := by
  rw [branchUnchecked, encode_eq hfits]
  exact if_pos hroom

end

end FunctionWriterA64

end Tpde.Assembler
