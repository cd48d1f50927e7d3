import Mathlib
import Tpde.Assembler.FunctionWriterA64

/-!
# Label fixups of AArch64

At the end of a function `handle_fixups` fills in the distances of the branches to labels that
were not placed. A conditional branch that does not reach its label goes to a veneer, which is
in the first area behind it, and the veneer goes to the label. Which veneer a branch gets
depends on the branches before it (`handleFixups_of_inv`).
-/

namespace Tpde.Assembler

open Branches

/-! ### The model -/

namespace FixupKind

/-- The bits of the distance of a branch. -/
def nbits : FixupKind → ℕ
  | br => 26
  | condBr => 19
  | testBr => 14
  | jumpTable => 0

/-- The highest bit is the sign bit, and the lowest two bits of a distance are ignored. -/
def reach (kind : FixupKind) : ℕ := 4 * 2 ^ (kind.nbits - 1)

/-- The kinds that need veneers. -/
def isCond : FixupKind → Bool
  | condBr | testBr => true
  | br | jumpTable => false

/-- The kind for a branch instruction. -/
def ofTest : Test → FixupKind
  | .always => br
  | .cond _ | .zero .. | .nonzero .. => condBr
  | .bitClear .. | .bitSet .. => testBr

theorem nbits_ofTest (t : Test) : (ofTest t).nbits = t.bits := by cases t <;> rfl

theorem isCond_eq (kind : FixupKind) : kind.isCond = (kind == condBr || kind == testBr) := by
  cases kind <;> rfl

end FixupKind

namespace FunctionWriterA64

variable {Op : Type}

/-- A word that is zero. -/
def isZero : Inst Op → Bool
  | .data w => w == 0
  | _ => false

/-- A branch with its distance filled in: the bits that the field has no room for go over the rest. -/
def fillDist (nbits diff : ℕ) : Inst Op → Inst Op
  | .branch t _ => if t.bits = nbits ∧ diff / 4 < 2 ^ nbits then
    .branch t (Int.bmod (diff / 4 : ℕ) (2 ^ nbits)) else .garbled
  | _ => .garbled

/-- `lower_bound` over the veneers, and the next slot of the area it finds. -/
def takeSlot (off : ℕ) : List ℕ → Option (ℕ × List ℕ)
  | [] => none
  | veneer :: veneers =>
    if off ≤ veneer then some (veneer, (veneer + 4) :: veneers)
    else (takeSlot off veneers).map fun (slot, veneers) => (slot, veneer :: veneers)

/-- The branch at a veneer, with 32 bits. -/
def veneerBranch (labelOff slot : ℕ) : Inst Op :=
  (encode .always ((labelOff + 2 ^ 32 - slot) % 2 ^ 32 / 4 : ℕ)).getD (.data 0)

/-- `fix_condbr`. -/
def fixCondbr (w : FunctionWriterA64 Op) (f : LabelFixup) (labelOff : ℕ) : Option (FunctionWriterA64 Op) :=
  if f.off ≤ labelOff ∧ labelOff - f.off < 128 * 1024 * 1024 then
    if f.kind.reach ≤ labelOff - f.off then do
      let (slot, veneers) ← takeSlot f.off w.veneers
      if isZero (w.code slot) then
        let code := Function.update w.code slot (veneerBranch labelOff slot)
        some { w with
          code := Function.update code f.off (fillDist f.kind.nbits (slot - f.off) (code f.off))
          veneers := veneers }
      else none
    else some { w with
      code := Function.update w.code f.off (fillDist f.kind.nbits (labelOff - f.off) (w.code f.off)) }
  else none

/-- The count of the branches that have no veneers behind them. -/
def countDown (w : FunctionWriterA64 Op) (f : LabelFixup) : Option (FunctionWriterA64 Op) :=
  if w.veneers.getLast?.all (· < f.off) then
    match f.kind with
    | .condBr =>
      if 0 < w.unresolvedCondBrs then some { w with unresolvedCondBrs := w.unresolvedCondBrs - 1 } else none
    | .testBr =>
      if 0 < w.unresolvedTestBrs then some { w with unresolvedTestBrs := w.unresolvedTestBrs - 1 } else none
    | _ => some w
  else some w

/-- A word of a jump table, which has the offset of the table. -/
def tableEntry (labelOff : ℕ) : Inst Op → Inst Op
  | .data tableOff => .data (BitVec.ofNat 32 labelOff - tableOff)
  | _ => .garbled

/-- `label_offset` of the label of a fixup. -/
def target (w : FunctionWriterA64 Op) (f : LabelFixup) : Option ℕ := (w.labelOffsets[f.label]?).join

/-- The loop body of `handle_fixups`. -/
def handleFixup (w : FunctionWriterA64 Op) (f : LabelFixup) : Option (FunctionWriterA64 Op) := do
  let labelOff ← w.target f
  match f.kind with
  | .br =>
    if f.off ≤ labelOff ∧ labelOff - f.off < 128 * 1024 * 1024 then
      some { w with
        code := Function.update w.code f.off ((encode .always ((labelOff - f.off) / 4 : ℕ)).getD (.data 0)) }
    else none
  | .condBr | .testBr => (← w.countDown f).fixCondbr f labelOff
  | .jumpTable => some { w with code := Function.update w.code f.off (tableEntry labelOff (w.code f.off)) }

/-- `handle_fixups`. -/
def handleFixups (w : FunctionWriterA64 Op) : Option (FunctionWriterA64 Op) :=
  w.labelFixups.foldlM handleFixup w

/-- `begin_func`. -/
def beginFunc (w : FunctionWriterA64 Op) (expectedSize : ℕ) : Option (FunctionWriterA64 Op) :=
  { w with
    veneers := []
    unresolvedTestBrs := 0
    unresolvedCondBrs := 0
    labelOffsets := []
    labelFixups := []
    growthSize := expectedSize }.ensureSpace expectedSize

/-- What is called to write a function. A label is placed at the current offset, and a branch to a label is
written together with its fixup. -/
inductive Call (Op : Type) where
  | ensureSpace (size : ℕ)
  | writeInst (i : Inst Op)
  | writeInstUnchecked (i : Inst Op)
  | labelCreate
  | labelPlace (label : ℕ)
  | branchTo (t : Test) (label : ℕ)

/-- A call. -/
def Call.exec (w : FunctionWriterA64 Op) : Call Op → Option (FunctionWriterA64 Op)
  | ensureSpace size => w.ensureSpace size
  | writeInst i => do if isZero i then none else (← w.ensureSpace 4).writeUnchecked i
  | writeInstUnchecked i => if isZero i then none else w.writeUnchecked i
  | labelCreate => some w.labelCreate.1
  | labelPlace label => w.labelPlace label w.offset
  | branchTo t label => do
    let w ← w.branchUnchecked t 0
    w.labelRef label (w.offset - 4) (.ofTest t)

/-! ### What fixups should do -/

/-- The first area behind a branch, as its first veneer. -/
def areaOf (w : FunctionWriterA64 Op) (f : LabelFixup) : Option ℕ := w.veneers.find? (f.off < ·)

/-- The slots of an area are those that the branch in front of it goes over. -/
def SlotIn (w : FunctionWriterA64 Op) (v p : ℕ) : Prop :=
  ∃ n i : ℕ, w.code (v - 4) = .branch .always (n + 1 : ℕ) ∧ i < n ∧ p = v + 4 * i

/-- A branch goes to a label if its test holds, at once or by a veneer behind it, and otherwise on. -/
def GoesTo (w w' : FunctionWriterA64 Op) (f : LabelFixup) (labelOff : ℕ) : Prop :=
  ∃ (t : Test) (p : ℕ), w.code f.off = .branch t 0 ∧
    (∀ s, next s f.off (w'.code f.off) = some (if t.holds s then (p : ℤ) else f.off + 4)) ∧
    (p = labelOff ∨ (∃ v, w.areaOf f = some v ∧ w.SlotIn v p) ∧ ∀ s,
      next s p (w'.code p) = some (labelOff : ℤ))

/-- What the text should be when the fixups are handled. -/
structure Resolved (start : ℕ) (w w' : FunctionWriterA64 Op) : Prop where
  /-- Every branch goes to its label. -/
  goesTo : ∀ f ∈ w.labelFixups, ∀ labelOff, w.target f = some labelOff → GoesTo w w' f labelOff
  /-- A veneer belongs to one branch. -/
  own : ∀ f ∈ w.labelFixups, ∀ g ∈ w.labelFixups, ∀ v ∈ w.veneers, ∀ p, w.SlotIn v p → ∀ s s',
    next s f.off (w'.code f.off) = some (p : ℤ) → next s' g.off (w'.code g.off) = some (p : ℤ) → f = g
  /-- Only branches get to a veneer: those with a fixup, and what was written with a distance. -/
  entered : ∀ v ∈ w.veneers, ∀ p, w.SlotIn v p → ∀ q s, start ≤ q → q < w.offset → q % 4 = 0 →
    next s q (w'.code q) = some (p : ℤ) → (∃ f ∈ w.labelFixups, f.off = q ∧ w.areaOf f = some v) ∨
      ∃ t imm, w.code q = .branch t imm ∧ w'.code q = .branch t imm ∧ t.holds s ∧ q + 4 * imm = p
  /-- Control goes over the areas. -/
  skips : ∀ v ∈ w.veneers, ∃ n : ℕ, w.code (v - 4) = .branch .always (n + 1 : ℕ) ∧
    ∀ s, next s (v - 4) (w'.code (v - 4)) = some ((v + 4 * n : ℕ) : ℤ)
  /-- Nothing else is changed. -/
  unchanged : ∀ p, w'.code p ≠ w.code p → (∃ f ∈ w.labelFixups, p = f.off) ∨ ∃ v ∈ w.veneers, w.SlotIn v p

/-- A conditional branch that does not reach its label. -/
def IsFar (w : FunctionWriterA64 Op) (f : LabelFixup) : Bool :=
  f.kind.isCond && (w.target f).any fun labelOff => f.off + f.kind.reach ≤ labelOff

/-- Those of some branches that need a slot of an area. -/
def farIn (w : FunctionWriterA64 Op) (v : ℕ) (fs : List LabelFixup) : ℕ :=
  (fs.filter fun f => w.IsFar f && w.areaOf f == some v).length

/-- There is an area behind a branch, the slot behind those of the branches before it is in reach, and
the branch is not just behind an area that has no slot left. -/
def Served (w : FunctionWriterA64 Op) (f : LabelFixup) : Prop :=
  (∃ v, w.areaOf f = some v ∧
    v + 4 * w.farIn v (w.labelFixups.filter (·.off < f.off)) < f.off + f.kind.reach) ∧
    ∀ v ∈ w.veneers, v + 4 * w.farIn v w.labelFixups ≠ f.off

/-! ### The areas of a function -/

/-- The branches that have slots in an area. -/
def slots (w : FunctionWriterA64 Op) (v : ℕ) : ℕ :=
  (w.labelFixups.filter fun f => f.kind.isCond && w.areaOf f == some v).length

/-- The branches of a kind that have no area behind them. -/
def unresolved (w : FunctionWriterA64 Op) (kind : FixupKind) (fs : List LabelFixup) : ℕ :=
  (fs.filter fun f => f.kind == kind && w.areaOf f == none).length

/-- A fixup is at a branch in the text, and its label is not placed before it. -/
structure FixupInv (start : ℕ) (w : FunctionWriterA64 Op) (f : LabelFixup) : Prop where
  start_le : start ≤ f.off
  lt : f.off + 4 ≤ w.offset
  align : f.off % 4 = 0
  branch : ∃ t, w.code f.off = .branch t 0 ∧ f.kind = .ofTest t
  label : ∃ o, w.labelOffsets[f.label]? = some o ∧ ∀ l, o = some l → f.off < l
  apart : ∀ v ∈ w.veneers, f.off + 8 ≤ v ∨ v + 4 * w.slots v ≤ f.off

/-- An area has a branch over it and empty slots for the branches before it. -/
structure AreaInv (start : ℕ) (w : FunctionWriterA64 Op) (v : ℕ) : Prop where
  room : start + 4 * w.slots v + 4 ≤ v
  align : v % 4 = 0
  le : v + 4 * w.slots v ≤ w.offset
  skips : w.code (v - 4) = (encode .always (w.slots v + 1 : ℕ)).getD (.data 0)
  empty : ∀ i < w.slots v, w.code (v + 4 * i) = .data 0

/-- What holds while a function is written from `start` on. -/
structure Inv (start : ℕ) (w : FunctionWriterA64 Op) : Prop where
  align : w.offset % 4 = 0
  room : start + w.veneerSize ≤ w.offset
  sorted : w.labelFixups.Pairwise (·.off < ·.off)
  fixup : ∀ f ∈ w.labelFixups, FixupInv start w f
  area : ∀ v ∈ w.veneers, AreaInv start w v
  areas : w.veneers.Pairwise fun v v' => v + 4 * w.slots v + 4 ≤ v'
  label : ∀ l, some l ∈ w.labelOffsets → l % 4 = 0 ∧ l ≤ w.offset ∧ ∀ v ∈ w.veneers, l < v ∨
    v + 4 * w.slots v ≤ l
  condBrs : w.unresolvedCondBrs = w.unresolved .condBr w.labelFixups
  testBrs : w.unresolvedTestBrs = w.unresolved .testBr w.labelFixups

section
variable {start : ℕ} {w w' : FunctionWriterA64 Op}

/-- More text. -/
theorem Inv.extend (h : Inv start w) (hfixups : w'.labelFixups = w.labelFixups)
    (hlabels : w'.labelOffsets = w.labelOffsets)
    (hveneers : w'.veneers = w.veneers) (hcond : w'.unresolvedCondBrs = w.unresolvedCondBrs)
    (htest : w'.unresolvedTestBrs = w.unresolvedTestBrs) (hcode : ∀ p < w.offset, w'.code p = w.code p)
    (hle : w.offset ≤ w'.offset) (halign : w'.offset % 4 = 0) : Inv start w' := by
  have hslots : w'.slots = w.slots := by
    funext v
    simp only [slots, areaOf, hfixups, hveneers]
  have hunresolved : w'.unresolved = w.unresolved := by
    funext kind fs
    simp only [unresolved, areaOf, hveneers]
  refine ⟨halign, ?_, ?_, ?_, ?_, ?_, ?_, ?_, ?_⟩
  · rw [veneerSize, hcond, htest]
    exact h.room.trans hle
  · rw [hfixups]
    exact h.sorted
  · intro f hf
    obtain ⟨hstart, hlt, hal, ⟨t, ht, hkind⟩, hlabel, hapart⟩ := h.fixup f (hfixups ▸ hf)
    refine ⟨hstart, hlt.trans hle, hal, ⟨t, ?_, hkind⟩, hlabels ▸ hlabel, ?_⟩
    · rw [hcode _ (by omega), ht]
    · rwa [hveneers, hslots]
  · intro v hv
    obtain ⟨hroom, hal, hend, hover, hempty⟩ := h.area v (hveneers ▸ hv)
    rw [← hslots] at hroom hend hover hempty
    refine ⟨hroom, hal, hend.trans hle, ?_, fun i hi => ?_⟩
    · rw [hcode _ (by omega), hover]
    · rw [hcode _ (by omega), hempty i hi]
  · rw [hveneers, hslots]
    exact h.areas
  · intro l hl
    obtain ⟨hal, hlt, hv⟩ := h.label l (hlabels ▸ hl)
    exact ⟨hal, hlt.trans hle, by rwa [hveneers, hslots]⟩
  · rw [hcond, hunresolved, hfixups]
    exact h.condBrs
  · rw [htest, hunresolved, hfixups]
    exact h.testBrs

theorem Inv.grow (h : Inv start w) (size : ℕ) : Inv start (w.grow size) := by
  rw [FunctionWriterA64.grow]
  split <;> exact h.extend rfl rfl rfl rfl rfl (fun _ _ => rfl) le_rfl h.align

theorem mem_of_areaOf {f : LabelFixup} {v : ℕ} (h : w.areaOf f = some v) : v ∈ w.veneers ∧ f.off < v :=
  ⟨List.mem_of_find?_eq_some h, by simpa using List.find?_some h⟩

/-- A conditional branch is of one of two kinds. -/
theorem length_filter_isCond (p : LabelFixup → Bool) (fs : List LabelFixup) :
    (fs.filter fun f => f.kind.isCond && p f).length =
      (fs.filter fun f => f.kind == .condBr && p f).length + (fs.filter fun f => f.kind == .testBr &&
        p f).length := by
  simp only [FixupKind.isCond_eq]
  induction fs with
  | nil => rfl
  | cons f fs ih =>
    rw [List.filter_cons, List.filter_cons, List.filter_cons]
    cases f.kind <;> cases p f <;> simp [ih] <;> omega

theorem areaOf_addVeneers (h : Inv start w) {f : LabelFixup} (hf : f ∈ w.labelFixups) :
    w.addVeneers.areaOf f = some ((w.areaOf f).getD (w.offset + 4)) := by
  have hlt := (h.fixup f hf).lt
  rw [areaOf, addVeneers]
  dsimp only
  rw [List.find?_append, ← areaOf]
  cases w.areaOf f with
  | some v => rfl
  | none =>
    rw [Option.none_or, List.find?_singleton, if_pos (by simpa using by omega)]
    rfl

theorem slots_addVeneers {v : ℕ} (h : Inv start w) (hv : v ∈ w.veneers) :
    w.addVeneers.slots v = w.slots v := by
  have hle := (h.area v hv).le
  rw [slots, slots]
  congr 1
  refine List.filter_congr fun f hf => ?_
  rw [areaOf_addVeneers h hf]
  congr 1
  cases w.areaOf f with
  | some u => rfl
  | none => simpa using by omega

theorem slots_addVeneers_new (h : Inv start w) : 4 * w.addVeneers.slots (w.offset + 4) = w.veneerSize := by
  rw [slots, length_filter_isCond, veneerSize, h.condBrs, h.testBrs, unresolved, unresolved, Nat.add_comm]
  have harea : ∀ f ∈ w.labelFixups,
    (w.addVeneers.areaOf f == some (w.offset + 4)) = (w.areaOf f == none) := by
    intro f hf
    rw [areaOf_addVeneers h hf]
    cases hf : w.areaOf f with
    | none => simp
    | some u =>
      have hle := (h.area u (mem_of_areaOf hf).1).le
      simpa using by omega
  congr 3 <;> exact List.filter_congr fun f hf => by rw [harea f hf]

/-- An area for the branches that have none. -/
theorem Inv.addVeneers (h : Inv start w) : Inv start w.addVeneers := by
  have hroom := h.room
  have halign := h.align
  have hnew := slots_addVeneers_new h
  have hcode : ∀ p < w.offset, w.addVeneers.code p = w.code p := fun p hp => by
    rw [FunctionWriterA64.addVeneers]
    dsimp only
    rw [writeAt_apply, if_neg (by omega)]
  have hoff : w.addVeneers.offset = w.offset + w.veneerSize + 4 := rfl
  refine ⟨by omega, ?_, h.sorted, fun f hf => ?_, ?_, ?_, fun l hl => ?_, ?_, ?_⟩
  · show start + 4 * (0 + 0) ≤ _
    omega
  · obtain ⟨hstart, hlt, hal, ⟨t, ht, hkind⟩, hlabel, hapart⟩ := h.fixup f hf
    refine ⟨hstart, by omega, hal, ⟨t, ?_, hkind⟩, hlabel, List.forall_mem_append.mpr ⟨fun v hv => ?_, ?_⟩⟩
    · rw [hcode _ (by omega), ht]
    · rw [slots_addVeneers h hv]
      exact hapart v hv
    · exact List.forall_mem_singleton.mpr (.inl (by omega))
  · refine List.forall_mem_append.mpr ⟨fun v hv => ?_, List.forall_mem_singleton.mpr ?_⟩
    · obtain ⟨hroom, hal, hend, hover, hempty⟩ := h.area v hv
      rw [← slots_addVeneers h hv] at hroom hend hover hempty
      refine ⟨hroom, hal, by omega, ?_, fun i hi => ?_⟩
      · rw [hcode _ (by omega), hover]
      · rw [hcode _ (by omega), hempty i hi]
    · have hn : w.addVeneers.slots (w.offset + 4) = w.veneerSize / 4 := by omega
      refine ⟨by omega, by omega, by omega, ?_, fun i hi => ?_⟩
      · rw [hn, FunctionWriterA64.addVeneers]
        dsimp only
        rw [writeAt_apply, if_pos (by omega), Nat.add_sub_cancel, Nat.sub_self, Nat.zero_div,
          veneerArea, List.getElem?_cons_zero,
          Option.getD_some]
      · rw [FunctionWriterA64.addVeneers]
        dsimp only
        have hidx : (w.offset + 4 + 4 * i - w.offset) / 4 = i + 1 := by omega
        rw [writeAt_apply, if_pos (by omega), hidx, veneerArea, List.getElem?_cons_succ,
          List.getElem?_replicate,
          if_pos (by omega)]
        rfl
  · refine List.pairwise_append.mpr ⟨?_, List.pairwise_singleton _ _, fun v hv u hu => ?_⟩
    · refine h.areas.imp_of_mem fun hv _ hle => ?_
      rwa [slots_addVeneers h hv]
    · obtain rfl := List.mem_singleton.mp hu
      have hend := (h.area v hv).le
      rw [slots_addVeneers h hv]
      omega
  · obtain ⟨hal, hlt, hv⟩ := h.label l hl
    refine ⟨hal, by omega,
      List.forall_mem_append.mpr ⟨fun v hmem => ?_, List.forall_mem_singleton.mpr (.inl (by omega))⟩⟩
    rw [slots_addVeneers h hmem]
    exact hv v hmem
  · rw [unresolved, List.filter_eq_nil_iff.mpr]
    · rfl
    · intro f hf
      simp [areaOf_addVeneers h hf]
  · rw [unresolved, List.filter_eq_nil_iff.mpr]
    · rfl
    · intro f hf
      simp [areaOf_addVeneers h hf]

theorem Inv.ensureSpace {size : ℕ} (h : Inv start w) (hs : w.ensureSpace size = some w') : Inv start w' := by
  obtain ⟨-, hs⟩ := Option.ite_none_left_eq_some.mp hs
  split at hs
  · obtain ⟨-, ⟨-, rfl⟩ | ⟨-, rfl⟩⟩ := moreSpace_cases hs
    · exact (h.grow _).addVeneers
    · exact h.grow _
  · obtain rfl := Option.some.inj hs
    exact h

theorem Inv.writeUnchecked {i : Inst Op} (h : Inv start w) (hw : w.writeUnchecked i = some w') :
    Inv start w' := by
  have halign := h.align
  rw [FunctionWriterA64.writeUnchecked] at hw
  split at hw
  · obtain rfl := Option.some.inj hw
    exact h.extend rfl rfl rfl rfl rfl (fun p hp => Function.update_of_ne hp.ne ..)
      (Nat.le_add_right ..) (by dsimp only; omega)
  · cases hw

theorem Inv.labelCreate (h : Inv start w) : Inv start w.labelCreate.1 := by
  refine ⟨h.align, h.room, h.sorted, fun f hf => ?_, fun v hv => ?_, h.areas, fun l hl => ?_, h.condBrs,
    h.testBrs⟩
  · obtain ⟨hstart, hlt, hal, hbranch, ⟨o, ho, hpos⟩, hapart⟩ := h.fixup f hf
    exact ⟨hstart, hlt, hal, hbranch,
      ⟨o, (List.getElem?_append_left (List.getElem?_eq_some_iff.mp ho).1).trans ho, hpos⟩, hapart⟩
  · obtain ⟨hroom, hal, hend, hover, hempty⟩ := h.area v hv
    exact ⟨hroom, hal, hend, hover, hempty⟩
  · rcases List.mem_append.mp hl with hl | hl
    · exact h.label l hl
    · cases List.mem_singleton.mp hl

theorem Inv.labelPlace {label : ℕ} (h : Inv start w) (hw : w.labelPlace label w.offset = some w') :
    Inv start w' := by
  rw [FunctionWriterA64.labelPlace] at hw
  split at hw
  · obtain rfl := Option.some.inj hw
    refine ⟨h.align, h.room, h.sorted, fun f hf => ?_, fun v hv => ?_, h.areas, fun l hl => ?_,
      h.condBrs, h.testBrs⟩
    · obtain ⟨hstart, hlt, hal, hbranch, ⟨o, ho, hpos⟩, hapart⟩ := h.fixup f hf
      refine ⟨hstart, hlt, hal, hbranch, ?_, hapart⟩
      by_cases hlabel : label = f.label
      · refine ⟨some w.offset, ?_, fun l hl => ?_⟩
        · subst hlabel
          exact List.getElem?_set_self (List.getElem?_eq_some_iff.mp ho).1
        · obtain rfl := Option.some.inj hl
          omega
      · exact ⟨o, (List.getElem?_set_ne hlabel).trans ho, hpos⟩
    · obtain ⟨hroom, hal, hend, hover, hempty⟩ := h.area v hv
      exact ⟨hroom, hal, hend, hover, hempty⟩
    · rcases List.mem_or_eq_of_mem_set hl with hl | hl
      · exact h.label l hl
      · obtain rfl := Option.some.inj hl
        exact ⟨h.align, le_rfl, fun v hv => .inr (h.area v hv).le⟩
  · cases hw

/-- A branch and its fixup. -/
theorem branchTo_eq {t : Test} {label : ℕ} (hw : (Call.branchTo t label).exec w = some w') :
    w.labelOffsets[label]? = some none ∧ w' = { w with
      code := Function.update w.code w.offset (.branch t 0)
      offset := w.offset + 4
      labelFixups := w.labelFixups ++ [⟨label, w.offset, .ofTest t⟩]
      unresolvedCondBrs := w.unresolvedCondBrs + if FixupKind.ofTest t = .condBr then 1 else 0
      unresolvedTestBrs := w.unresolvedTestBrs + if FixupKind.ofTest t = .testBr then 1 else 0 } := by
  rw [Call.exec] at hw
  obtain ⟨w₁, hw₁, hw⟩ := Option.bind_eq_some_iff.mp hw
  have hzero : Fits t.bits 0 := by cases t <;> simp [Fits, Test.bits]
  rw [branchUnchecked, encode_eq hzero, Option.bind_eq_bind, Option.bind_some,
    FunctionWriterA64.writeUnchecked] at hw₁
  obtain ⟨-, hw₁⟩ := Option.ite_none_right_eq_some.mp hw₁
  obtain rfl := Option.some.inj hw₁
  obtain ⟨hlabel, hw⟩ := Option.ite_none_right_eq_some.mp hw
  exact ⟨hlabel, (Option.some.inj hw).symm⟩

/-- A fixup for the branch that was just written. -/
theorem Inv.addFixup {f : LabelFixup} (h : Inv start w)
    (hfixups : w'.labelFixups = w.labelFixups ++ [f]) (hf : f.off = w.offset)
    (hlabels : w'.labelOffsets = w.labelOffsets) (hlabel : w.labelOffsets[f.label]? = some none)
    (hveneers : w'.veneers = w.veneers)
    (hcond : w'.unresolvedCondBrs = w.unresolvedCondBrs + if f.kind = .condBr then 1 else 0)
    (htest : w'.unresolvedTestBrs = w.unresolvedTestBrs + if f.kind = .testBr then 1 else 0)
    (hbranch : ∃ t, w'.code f.off = .branch t 0 ∧ f.kind = .ofTest t) (hcode : ∀ p < w.offset,
      w'.code p = w.code p)
    (hoff : w'.offset = w.offset + 4) : Inv start w' := by
  have halign := h.align
  have hroom := h.room
  have harea : w'.areaOf = w.areaOf := by
    funext f
    rw [areaOf, areaOf, hveneers]
  have hnone : w.areaOf f = none := by
    refine List.find?_eq_none.mpr fun v hv => ?_
    have := (h.area v hv).le
    simpa using by omega
  have hslots : w'.slots = w.slots := by
    funext v
    rw [slots, hfixups, harea, List.filter_append, List.filter_singleton, hnone]
    simp [slots]
  have hunresolved : ∀ kind, w'.unresolved kind w'.labelFixups =
      w.unresolved kind w.labelFixups + if f.kind = kind then 1 else 0 := fun kind => by
    rw [unresolved, hfixups, harea, List.filter_append, List.length_append, List.filter_singleton,
      hnone, unresolved]
    by_cases hkind : f.kind = kind
    · simp [hkind]
    · simp [hkind, beq_false_of_ne hkind]
  have hfixup : ∀ g ∈ w.labelFixups, FixupInv start w' g := fun g hg => by
    obtain ⟨hstart, hlt, hal, ⟨t, ht, hkind⟩, hlabel, hapart⟩ := h.fixup g hg
    refine ⟨hstart, by omega, hal, ⟨t, ?_, hkind⟩, hlabels ▸ hlabel, by rwa [hveneers, hslots]⟩
    rw [hcode _ (by omega), ht]
  refine ⟨by omega, ?_, ?_, ?_, fun v hv => ?_, ?_, fun l hl => ?_, ?_, ?_⟩
  · rw [veneerSize] at hroom ⊢
    rw [hcond, htest]
    by_cases hkind : f.kind = .condBr
    · simp only [hkind, if_true, reduceCtorEq, if_false]
      omega
    · simp only [hkind, if_false]
      split <;> omega
  · rw [hfixups]
    refine List.pairwise_append.mpr ⟨h.sorted, List.pairwise_singleton _ _, fun g hg f' hf' => ?_⟩
    obtain rfl := List.mem_singleton.mp hf'
    have := (h.fixup g hg).lt
    omega
  · rw [hfixups]
    refine List.forall_mem_append.mpr ⟨hfixup,
      List.forall_mem_singleton.mpr ⟨by omega, by omega, by omega, hbranch, ?_, ?_⟩⟩
    · exact ⟨none, hlabels ▸ hlabel, by simp⟩
    · intro v hv
      rw [hf, hslots]
      exact .inr (h.area v (hveneers ▸ hv)).le
  · obtain ⟨hroom, hal, hend, hover, hempty⟩ := h.area v (hveneers ▸ hv)
    rw [← hslots] at hroom hend hover hempty
    refine ⟨hroom, hal, by omega, ?_, fun i hi => ?_⟩
    · rw [hcode _ (by omega), hover]
    · rw [hcode _ (by omega), hempty i hi]
  · rw [hveneers, hslots]
    exact h.areas
  · obtain ⟨hal, hlt, hv⟩ := h.label l (hlabels ▸ hl)
    exact ⟨hal, by omega, by rwa [hveneers, hslots]⟩
  · rw [hcond, hunresolved, h.condBrs]
  · rw [htest, hunresolved, h.testBrs]

theorem Inv.branchTo {t : Test} {label : ℕ} (h : Inv start w)
    (hw : (Call.branchTo t label).exec w = some w') : Inv start w' := by
  obtain ⟨hlabel, rfl⟩ := branchTo_eq hw
  exact h.addFixup rfl rfl rfl hlabel rfl rfl rfl ⟨t, Function.update_self ..,
    rfl⟩ (fun p hp => Function.update_of_ne hp.ne ..) rfl

/-- **A call keeps the invariant.** -/
theorem Inv.exec {call : Call Op} (h : Inv start w) (hw : call.exec w = some w') : Inv start w' := by
  cases call with
  | ensureSpace size => exact h.ensureSpace hw
  | writeInst i =>
    rw [Call.exec] at hw
    split at hw
    · cases hw
    · obtain ⟨w₁, hw₁, hw⟩ := Option.bind_eq_some_iff.mp hw
      exact (h.ensureSpace hw₁).writeUnchecked hw
  | writeInstUnchecked i => exact h.writeUnchecked (Option.ite_none_left_eq_some.mp hw).2
  | labelCreate =>
    obtain rfl := Option.some.inj hw
    exact h.labelCreate
  | labelPlace label => exact h.labelPlace hw
  | branchTo t label => exact h.branchTo hw

/-- Space adds no fixups, and a call adds one for the branch that it writes. -/
theorem ensureSpace_fixups {size : ℕ} (hw : w.ensureSpace size = some w') : w.offset ≤ w'.offset ∧
    w'.labelFixups = w.labelFixups := by
  have hgrow (n : ℕ) : (w.grow n).labelFixups = w.labelFixups := by
    rw [FunctionWriterA64.grow]
    split <;> rfl
  obtain ⟨-, hw⟩ := Option.ite_none_left_eq_some.mp hw
  split at hw
  · obtain ⟨-, ⟨-, rfl⟩ | ⟨-, rfl⟩⟩ := moreSpace_cases hw
    · refine ⟨?_, hgrow _⟩
      simp only [FunctionWriterA64.addVeneers, grown, offset_grow]
      omega
    · exact ⟨(offset_grow ..).ge, hgrow _⟩
  · obtain rfl := Option.some.inj hw
    exact ⟨le_rfl, rfl⟩

theorem exec_fixups {call : Call Op} (hw : call.exec w = some w') : w.offset ≤ w'.offset ∧
    ∀ f ∈ w'.labelFixups, f ∈ w.labelFixups ∨ w.offset ≤ f.off ∧ f.off + 4 ≤ w'.offset := by
  have hwrite {w w' : FunctionWriterA64 Op} {i : Inst Op} (hw : w.writeUnchecked i = some w') :
      w.offset ≤ w'.offset ∧ w'.labelFixups = w.labelFixups := by
    obtain ⟨-, hw⟩ := Option.ite_none_right_eq_some.mp hw
    rw [← Option.some.inj hw]
    exact ⟨Nat.le_add_right .., rfl⟩
  cases call with
  | ensureSpace size =>
    obtain ⟨hle, hfixups⟩ := ensureSpace_fixups hw
    exact ⟨hle, fun f hf => .inl (hfixups ▸ hf)⟩
  | writeInst i =>
    obtain ⟨-, hw⟩ := Option.ite_none_left_eq_some.mp hw
    obtain ⟨w₁, hw₁, hw⟩ := Option.bind_eq_some_iff.mp hw
    obtain ⟨hle₁, hfixups₁⟩ := ensureSpace_fixups hw₁
    obtain ⟨hle, hfixups⟩ := hwrite hw
    exact ⟨hle₁.trans hle, fun f hf => .inl (hfixups₁ ▸ hfixups ▸ hf)⟩
  | writeInstUnchecked i =>
    obtain ⟨hle, hfixups⟩ := hwrite (Option.ite_none_left_eq_some.mp hw).2
    exact ⟨hle, fun f hf => .inl (hfixups ▸ hf)⟩
  | labelCreate =>
    rw [← Option.some.inj hw]
    exact ⟨le_rfl, fun f hf => .inl hf⟩
  | labelPlace label =>
    obtain ⟨-, hw⟩ := Option.ite_none_right_eq_some.mp hw
    rw [← Option.some.inj hw]
    exact ⟨le_rfl, fun f hf => .inl hf⟩
  | branchTo t label =>
    obtain ⟨-, rfl⟩ := branchTo_eq hw
    refine ⟨Nat.le_add_right .., fun f hf => (List.mem_append.mp hf).imp_right fun hf => ?_⟩
    obtain rfl := List.mem_singleton.mp hf
    exact ⟨le_rfl, le_rfl⟩

/-- The invariant holds for a function that is begun. -/
theorem Inv.beginFunc {expectedSize : ℕ} (halign : w.offset % 4 = 0)
    (hw : w.beginFunc expectedSize = some w') : Inv w.offset w' := by
  refine Inv.ensureSpace ?_ hw
  exact ⟨halign, le_rfl, .nil, nofun, nofun, .nil, nofun, rfl, rfl⟩

theorem Inv.run {calls : List (Call Op)} (h : Inv start w) (hw : calls.foldlM Call.exec w = some w') :
    Inv start w' := by
  induction calls generalizing w with
  | nil =>
    obtain rfl := Option.some.inj hw
    exact h
  | cons call calls ih =>
    obtain ⟨w₁, hw₁, hw⟩ := Option.bind_eq_some_iff.mp hw
    exact ih (h.exec hw₁) hw

end

/-! ### The slots of the branches -/

/-- The slot that a branch should get. -/
def slotOf (w : FunctionWriterA64 Op) (f : LabelFixup) : ℕ :=
  (w.areaOf f).getD 0 + 4 * w.farIn ((w.areaOf f).getD 0) (w.labelFixups.filter (·.off < f.off))

section
variable {start : ℕ} {w : FunctionWriterA64 Op} {f g : LabelFixup} {v : ℕ}

/-- Of two elements of a list in order, one is before the other. -/
theorem pairwise_or {α : Type} {R : α → α → Prop} {l : List α} (h : l.Pairwise R) {a b : α} (ha : a ∈ l)
    (hb : b ∈ l) (hne : a ≠ b) :
    R a b ∨ R b a :=
  have : Std.Symm fun a b => R a b ∨ R b a := ⟨fun _ _ => Or.symm⟩
  (h.imp (S := fun a b => R a b ∨ R b a) Or.inl).forall ha hb hne

theorem farIn_append (w : FunctionWriterA64 Op) (v : ℕ) (fs gs : List LabelFixup) :
    w.farIn v (fs ++ gs) = w.farIn v fs + w.farIn v gs := by
  rw [farIn, List.filter_append, List.length_append]
  rfl

theorem farIn_singleton (hfar : w.IsFar f = true) (harea : w.areaOf f = some v) : w.farIn v [f] = 1 := by
  simp [farIn, hfar, harea]

theorem farIn_le_slots (w : FunctionWriterA64 Op) (v : ℕ) : w.farIn v w.labelFixups ≤ w.slots v := by
  refine (List.monotone_filter_right _ fun f hf => ?_).length_le
  simp only [IsFar, Bool.and_eq_true] at hf ⊢
  exact ⟨hf.1.1, hf.2⟩

/-- The fixups before one of them. -/
theorem filter_lt {done rest : List LabelFixup} (h : Inv start w)
    (hsplit : w.labelFixups = done ++ f :: rest) :
    w.labelFixups.filter (·.off < f.off) = done := by
  have hsorted := h.sorted
  rw [hsplit, List.pairwise_append, List.pairwise_cons] at hsorted
  obtain ⟨-, ⟨hrest, -⟩, hdone⟩ := hsorted
  have hall : done.filter (·.off < f.off) = done :=
    List.filter_eq_self.mpr fun g hg => by simpa using hdone g hg f List.mem_cons_self
  have hnil : (f :: rest).filter (·.off < f.off) = [] := by
    refine List.filter_eq_nil_iff.mpr (List.forall_mem_cons.mpr ⟨by simp, fun g hg => ?_⟩)
    have := hrest g hg
    simpa using this.le
  rw [hsplit, List.filter_append, hall, hnil, List.append_nil]

/-- The slot of a branch is in its area. -/
theorem slotOf_mem (h : Inv start w) (hf : f ∈ w.labelFixups) (hfar : w.IsFar f = true)
    (harea : w.areaOf f = some v) :
    ∃ i < w.slots v, w.slotOf f = v + 4 * i := by
  obtain ⟨done, rest, hsplit⟩ := List.append_of_mem hf
  refine ⟨w.farIn v done, lt_of_lt_of_le ?_ (w.farIn_le_slots v), ?_⟩
  · rw [hsplit, farIn_append, ← List.singleton_append, farIn_append, farIn_singleton hfar harea]
    omega
  · rw [slotOf, harea, filter_lt h hsplit]
    rfl

theorem slotOf_lt (h : Inv start w) (hf : f ∈ w.labelFixups) (hfar : w.IsFar f = true)
    (harea : w.areaOf f = some v)
    (harea' : w.areaOf g = some v) (hlt : f.off < g.off) : w.slotOf f < w.slotOf g := by
  obtain ⟨done, rest, hsplit⟩ := List.append_of_mem hf
  have hdone : done.filter (·.off < g.off) = done := by
    refine List.filter_eq_self.mpr fun x hx => ?_
    rw [← filter_lt h hsplit, List.mem_filter] at hx
    have : x.off < f.off := by simpa using hx.2
    simpa using this.trans hlt
  have hcons : (f :: rest).filter (·.off < g.off) = [f] ++ rest.filter (·.off < g.off) := by
    rw [List.filter_cons, if_pos (by simpa using hlt)]
    rfl
  rw [slotOf, slotOf, harea, harea', filter_lt h hsplit, hsplit, List.filter_append, hdone, hcons,
    farIn_append, farIn_append]
  simp only [Option.getD_some, farIn_singleton hfar harea]
  omega

/-- Areas have no slot in common. -/
theorem area_unique {v' i i' : ℕ} (h : Inv start w) (hv : v ∈ w.veneers) (hv' : v' ∈ w.veneers)
    (hi : i < w.slots v)
    (hi' : i' < w.slots v') (heq : v + 4 * i = v' + 4 * i') : v = v' := by
  by_contra hne
  have := pairwise_or h.areas hv hv' hne
  omega

/-- Branches have different slots. -/
theorem slotOf_inj {v' : ℕ} (h : Inv start w) (hf : f ∈ w.labelFixups) (hg : g ∈ w.labelFixups)
    (hfar : w.IsFar f = true)
    (hfar' : w.IsFar g = true) (harea : w.areaOf f = some v) (harea' : w.areaOf g = some v')
    (heq : w.slotOf f = w.slotOf g) :
    f = g := by
  obtain ⟨i, hi, hslot⟩ := slotOf_mem h hf hfar harea
  obtain ⟨i', hi', hslot'⟩ := slotOf_mem h hg hfar' harea'
  obtain rfl := area_unique h (mem_of_areaOf harea).1 (mem_of_areaOf harea').1 hi hi' (by omega)
  by_contra hne
  rcases pairwise_or h.sorted hf hg hne with hlt | hlt
  · exact (slotOf_lt h hf hfar harea harea' hlt).ne heq
  · exact (slotOf_lt h hg hfar' harea' harea hlt).ne' heq

theorem slot_ne_off {i : ℕ} (h : Inv start w) (hv : v ∈ w.veneers) (hi : i < w.slots v)
    (hf : f ∈ w.labelFixups) : v + 4 * i ≠ f.off := by
  have := (h.fixup f hf).apart v hv
  omega

/-- The branch over an area, in a function of less than 128 MiB. -/
theorem over_eq (h : Inv start w) (hsize : w.offset < start + 128 * 1024 * 1024) (hv : v ∈ w.veneers) :
    w.code (v - 4) = .branch .always (w.slots v + 1 : ℕ) := by
  obtain ⟨hroom, -, hend, hover, -⟩ := h.area v hv
  have hfits : Fits Test.always.bits ((w.slots v + 1 : ℕ) : ℤ) := by
    simp only [Fits, Test.bits]
    omega
  rw [hover, encode_eq hfits]
  rfl

theorem slotIn_iff {p : ℕ} (h : Inv start w) (hsize : w.offset < start + 128 * 1024 * 1024)
    (hv : v ∈ w.veneers) :
    w.SlotIn v p ↔ ∃ i < w.slots v, p = v + 4 * i := by
  rw [SlotIn, over_eq h hsize hv]
  constructor
  · rintro ⟨n, i, heq, hi, rfl⟩
    have : ((w.slots v + 1 : ℕ) : ℤ) = ((n + 1 : ℕ) : ℤ) := (Inst.branch.inj heq).2
    exact ⟨i, by omega, rfl⟩
  · rintro ⟨i, hi, rfl⟩
    exact ⟨_, i, rfl, hi, rfl⟩

end

/-! ### Filling in a distance -/

section
variable {t : Test} {diff : ℕ}

theorem fillDist_branch (h : diff < 4 * 2 ^ (t.bits - 1)) :
    (fillDist t.bits diff (.branch t 0) : Inst Op) = .branch t (diff / 4 : ℕ) := by
  obtain ⟨n, hn⟩ := Nat.exists_eq_succ_of_ne_zero t.bits_pos.ne'
  rw [hn, Nat.succ_sub_one] at h
  have hpow : 2 ^ (n + 1) = 2 * 2 ^ n := pow_succ' ..
  rw [fillDist, hn, Nat.succ_eq_add_one, hpow, if_pos ⟨rfl, by omega⟩]
  congr 1
  generalize 2 ^ n = reach at h
  refine Int.bmod_eq_of_le_mul_two ?_ ?_ <;> omega

/-- A distance that is too far is filled in as one that goes back, or over the rest of the word. -/
theorem fillDist_far (h : 4 * 2 ^ (t.bits - 1) ≤ diff) :
    (fillDist t.bits diff (.branch t 0) : Inst Op) = .garbled ∨ ∃ imm < 0,
      (fillDist t.bits diff (.branch t 0) : Inst Op) = .branch t imm := by
  obtain ⟨n, hn⟩ := Nat.exists_eq_succ_of_ne_zero t.bits_pos.ne'
  rw [hn, Nat.succ_sub_one] at h
  have hpow : 2 ^ (n + 1) = 2 * 2 ^ n := pow_succ' ..
  rw [fillDist, hn, Nat.succ_eq_add_one, hpow]
  split
  · rename_i hlt
    refine .inr ⟨_, ?_, rfl⟩
    have hmod : ((diff / 4 : ℕ) : ℤ) % ((2 * 2 ^ n : ℕ) : ℤ) = (diff / 4 : ℕ) :=
      Int.emod_eq_of_lt (by omega) (by omega)
    rw [Int.bmod_def, hmod]
    split <;> omega
  · exact .inl rfl

theorem branch_always_eq {l l' : ℕ} (h : l - l' < 128 * 1024 * 1024) :
    (encode .always ((l - l') / 4 : ℕ) : Option (Inst Op)) = some (.branch .always ((l - l') / 4 : ℕ)) := by
  refine encode_eq ?_
  simp only [Fits, Test.bits]
  omega

theorem veneerBranch_eq {labelOff slot : ℕ} (hle : slot ≤ labelOff)
    (h : labelOff - slot < 128 * 1024 * 1024) :
    (veneerBranch labelOff slot : Inst Op) = .branch .always ((labelOff - slot) / 4 : ℕ) := by
  have hmod : (labelOff + 2 ^ 32 - slot) % 2 ^ 32 = labelOff - slot := by omega
  rw [veneerBranch, hmod, branch_always_eq h]
  rfl

/-- The slot that is taken is the next one of the area. -/
theorem takeSlot_map {off a : ℕ} {slot slot' : ℕ → ℕ} (ha : slot' a = slot a + 4)
    (hne : ∀ v, v ≠ a → slot' v = slot v) :
    ∀ {vs : List ℕ}, (∀ v ∈ vs, off ≤ slot v ↔ off < v) → vs.find? (off < ·) = some a → vs.Nodup →
      takeSlot off (vs.map slot) = some (slot a, vs.map slot')
  | v :: vs, hiff, hfind, hnodup => by
    obtain ⟨hnot, hnodup⟩ := List.nodup_cons.mp hnodup
    rw [List.map_cons, takeSlot]
    by_cases hlt : off < v
    · rw [List.find?_cons_of_pos (by simpa using hlt)] at hfind
      obtain rfl := Option.some.inj hfind
      have hrest : vs.map slot' = vs.map slot :=
        List.map_congr_left fun u hu => hne u fun heq => hnot (heq ▸ hu)
      rw [if_pos ((hiff v List.mem_cons_self).mpr hlt), List.map_cons, ha, hrest]
    · rw [List.find?_cons_of_neg (by simpa using hlt)] at hfind
      have hva : v ≠ a := by
        rintro rfl
        exact hlt (by simpa using List.find?_some hfind)
      rw [if_neg (mt (hiff v List.mem_cons_self).mp hlt),
        takeSlot_map ha hne (fun u hu => hiff u (List.mem_cons_of_mem _ hu)) hfind hnodup,
          List.map_cons, hne v hva]
      rfl

/-- The slot that is taken is the first one that is not before the branch. -/
theorem takeSlot_spec {off slot : ℕ} : ∀ {vs vs' : List ℕ}, vs.Pairwise (· ≤ ·) →
    takeSlot off vs = some (slot, vs') →
    slot ∈ vs ∧ off ≤ slot ∧ ∀ v ∈ vs, off ≤ v → slot ≤ v
  | v :: vs, vs', hsorted, h => by
    obtain ⟨hle, hsorted⟩ := List.pairwise_cons.mp hsorted
    rw [takeSlot] at h
    split at h
    · rename_i hoff
      obtain ⟨rfl, -⟩ := Prod.mk.inj (Option.some.inj h)
      exact ⟨List.mem_cons_self, hoff, List.forall_mem_cons.mpr ⟨fun _ => le_rfl, fun u hu _ => hle u hu⟩⟩
    · rename_i hoff
      obtain ⟨⟨slot', vs''⟩, htake, heq⟩ := Option.map_eq_some_iff.mp h
      obtain ⟨rfl, -⟩ := Prod.mk.inj heq
      obtain ⟨hmem, hslot, hmin⟩ := takeSlot_spec hsorted htake
      exact ⟨List.mem_cons_of_mem _ hmem, hslot, List.forall_mem_cons.mpr ⟨fun hle => absurd hle hoff, hmin⟩⟩

end

/-! ### The loop over the fixups -/

/-- A branch has its distance, and its veneer too if it needs one. -/
def Fixed (w c : FunctionWriterA64 Op) (f : LabelFixup) : Prop :=
  ∃ t l, w.code f.off = .branch t 0 ∧ w.target f = some l ∧
    (w.IsFar f = false ∧ c.code f.off = .branch t ((l - f.off) / 4 : ℕ) ∨
      w.IsFar f = true ∧ (∃ v, w.areaOf f = some v) ∧ w.slotOf f ≤ l ∧
        c.code f.off = .branch t ((w.slotOf f - f.off) / 4 : ℕ) ∧
        c.code (w.slotOf f) = .branch .always ((l - w.slotOf f) / 4 : ℕ))

/-- The slots and the counts of `c` when of the fixups of `w` some are handled. -/
structure Passed (w c : FunctionWriterA64 Op) (done rest : List LabelFixup) : Prop where
  labels : c.labelOffsets = w.labelOffsets
  veneers : c.veneers = w.veneers.map fun v => v + 4 * w.farIn v done
  condBrs : w.unresolved .condBr rest ≤ c.unresolvedCondBrs
  testBrs : w.unresolved .testBr rest ≤ c.unresolvedTestBrs

/-- The writer `c` when of the fixups of `w` some are handled. -/
structure Handled (w c : FunctionWriterA64 Op) (done rest : List LabelFixup) :
    Prop extends Passed w c done rest where
  fixed : ∀ f ∈ done, Fixed w c f
  unchanged : ∀ p, (∀ f ∈ done, p ≠ f.off ∧ (w.IsFar f = true → p ≠ w.slotOf f)) → c.code p = w.code p

section
variable {start : ℕ} {w c c' : FunctionWriterA64 Op} {f : LabelFixup} {done rest : List LabelFixup}

theorem handled_nil (h : Inv start w) : Handled w w [] w.labelFixups :=
  ⟨⟨rfl, by simp [farIn], h.condBrs.ge, h.testBrs.ge⟩, nofun, fun _ _ => rfl⟩

/-- One more fixup is handled. -/
theorem Handled.step (h : Inv start w) (hd : Handled w c done (f :: rest))
    (hsplit : w.labelFixups = done ++ f :: rest)
    (harea : w.IsFar f = true → ∃ v, w.areaOf f = some v) (hlabels : c'.labelOffsets = c.labelOffsets)
    (hveneers : c'.veneers = w.veneers.map fun v => v + 4 * w.farIn v (done ++ [f])) (hfixed : Fixed w c' f)
    (hcode : ∀ p, p ≠ f.off → (w.IsFar f = true → p ≠ w.slotOf f) → c'.code p = c.code p)
    (hcond : w.unresolved .condBr rest ≤ c'.unresolvedCondBrs)
    (htest : w.unresolved .testBr rest ≤ c'.unresolvedTestBrs) :
    Handled w c' (done ++ [f]) rest := by
  have hf : f ∈ w.labelFixups := hsplit ▸ List.mem_append_right _ List.mem_cons_self
  have hslot : ∀ g ∈ w.labelFixups, w.IsFar f = true → g.off ≠ w.slotOf f := fun g hg hfar => by
    obtain ⟨v, hv⟩ := harea hfar
    obtain ⟨i, hi, heq⟩ := slotOf_mem h hf hfar hv
    rw [heq]
    exact (slot_ne_off h (mem_of_areaOf hv).1 hi hg).symm
  refine ⟨⟨hlabels.trans hd.labels, hveneers, hcond, htest⟩, ?_, fun p hp => ?_⟩
  · refine List.forall_mem_append.mpr ⟨fun g hg => ?_, List.forall_mem_singleton.mpr hfixed⟩
    have hmem : g ∈ w.labelFixups := hsplit ▸ List.mem_append_left _ hg
    have hlt : g.off < f.off := by
      rw [← filter_lt h hsplit, List.mem_filter] at hg
      simpa using hg.2
    have hoff := hcode g.off hlt.ne (hslot g hmem)
    obtain ⟨t, l, ht, hl, hor⟩ := hd.fixed g hg
    refine ⟨t, l, ht, hl, ?_⟩
    rw [hoff]
    rcases hor with hnear | ⟨hfar, ⟨v, hv⟩, hle, hbranch, hveneer⟩
    · exact .inl hnear
    · refine .inr ⟨hfar, ⟨v, hv⟩, hle, hbranch, (hcode _ ?_ fun hfar' => ?_).trans hveneer⟩
      · obtain ⟨i, hi, heq⟩ := slotOf_mem h hmem hfar hv
        rw [heq]
        exact slot_ne_off h (mem_of_areaOf hv).1 hi hf
      · obtain ⟨v', hv'⟩ := harea hfar'
        intro heq
        exact hlt.ne (congrArg LabelFixup.off (slotOf_inj h hmem hf hfar hfar' hv hv' heq))
  · obtain ⟨hdone, hlast⟩ := List.forall_mem_append.mp hp
    obtain ⟨hoff, hfar⟩ := hlast f (List.mem_singleton_self f)
    exact (hcode p hoff hfar).trans (hd.unchanged p hdone)

theorem unresolved_cons (w : FunctionWriterA64 Op) (kind : FixupKind) (f : LabelFixup)
    (rest : List LabelFixup) :
    w.unresolved kind (f :: rest) = w.unresolved kind rest + if f.kind = kind ∧ w.areaOf f = none then 1
      else 0 := by
  rw [unresolved, List.filter_cons]
  by_cases hf : f.kind = kind ∧ w.areaOf f = none
  · rw [if_pos (by simp [hf.1, hf.2]), if_pos hf]
    rfl
  · rw [if_neg (by simpa using hf), if_neg hf]
    rfl

/-- A branch with no veneer at or behind it has no area. -/
theorem areaOf_eq_none (h : Inv start w) {slot : ℕ → ℕ} (hslot : ∀ v, v ≤ slot v)
    (hall : (w.veneers.map slot).getLast?.all (· < f.off) = true) : w.areaOf f = none := by
  refine List.find?_eq_none.mpr fun v hv => ?_
  have hareas := h.areas
  rcases List.eq_nil_or_concat w.veneers with hnil | ⟨init, u, heq⟩
  · rw [hnil] at hv
    cases hv
  · rw [heq, List.concat_eq_append] at hall hv hareas
    have hlt : slot u < f.off := by simpa using hall
    have hle := hslot u
    have hvu : v ≤ u := by
      rcases List.mem_append.mp hv with hv | hv
      · have := (List.pairwise_append.mp hareas).2.2 v hv u (List.mem_singleton_self u)
        omega
      · exact (List.mem_singleton.mp hv).le
    simpa using by omega

/-- There is a count left for each branch that has no area. -/
theorem countDown_spec (h : Inv start w) (hd : Passed w c done (f :: rest)) :
    ∃ c₁, c.countDown f = some c₁ ∧ c₁.code = c.code ∧ c₁.labelOffsets = c.labelOffsets ∧
      c₁.veneers = c.veneers ∧
      w.unresolved .condBr rest ≤ c₁.unresolvedCondBrs ∧
        w.unresolved .testBr rest ≤ c₁.unresolvedTestBrs := by
  have hcond := hd.condBrs
  have htest := hd.testBrs
  rw [unresolved_cons] at hcond htest
  rw [countDown]
  split
  · rename_i hall
    rw [hd.veneers] at hall
    have hnone := areaOf_eq_none h (fun v => Nat.le_add_right ..) hall
    cases hkind : f.kind with
    | condBr =>
      rw [if_pos ⟨hkind, hnone⟩] at hcond
      rw [if_neg (by simp [hkind])] at htest
      exact ⟨_, if_pos (by omega), rfl, rfl, rfl, by dsimp only; omega, htest⟩
    | testBr =>
      rw [if_pos ⟨hkind, hnone⟩] at htest
      rw [if_neg (by simp [hkind])] at hcond
      exact ⟨_, if_pos (by omega), rfl, rfl, rfl, hcond, by dsimp only; omega⟩
    | br => exact ⟨c, rfl, rfl, rfl, rfl, by omega, by omega⟩
    | jumpTable => exact ⟨c, rfl, rfl, rfl, rfl, by omega, by omega⟩
  · exact ⟨c, rfl, rfl, rfl, rfl, by omega, by omega⟩

/-- A label is behind the branches to it, and not in an area. -/
theorem target_spec {l : ℕ} (h : Inv start w) (hf : f ∈ w.labelFixups) (hl : w.target f = some l) :
    f.off < l ∧ l ≤ w.offset ∧ l % 4 = 0 ∧ ∀ v ∈ w.veneers, l < v ∨ v + 4 * w.slots v ≤ l := by
  obtain ⟨o, ho, hlt⟩ := (h.fixup f hf).label
  obtain rfl : o = some l := by
    rw [target, ho] at hl
    exact hl
  obtain ⟨halign, hle, hareas⟩ := h.label l (List.mem_of_getElem? ho)
  exact ⟨hlt l rfl, hle, halign, hareas⟩

theorem Passed.target_eq (hd : Passed w c done rest) (f : LabelFixup) : c.target f = w.target f := by
  rw [target, target, hd.labels]

/-- A word that is no branch of those that are handled, and not one of their slots, is as it was. -/
theorem Handled.code_off (h : Inv start w) (hd : Handled w c done (f :: rest))
    (hsplit : w.labelFixups = done ++ f :: rest) :
    c.code f.off = w.code f.off := by
  refine hd.unchanged _ fun g hg => ?_
  have hmem : g ∈ w.labelFixups := hsplit ▸ List.mem_append_left _ hg
  constructor
  · rw [← filter_lt h hsplit, List.mem_filter] at hg
    have : g.off < f.off := by simpa using hg.2
    exact this.ne'
  · intro hfar
    obtain ⟨-, -, -, -, ⟨hnear, -⟩ | ⟨-, ⟨v, hv⟩, -⟩⟩ := hd.fixed g hg
    · rw [hnear] at hfar
      cases hfar
    · obtain ⟨i, hi, heq⟩ := slotOf_mem h hmem hfar hv
      rw [heq]
      exact (slot_ne_off h (mem_of_areaOf hv).1 hi (hsplit ▸ List.mem_append_right _ List.mem_cons_self)).symm

theorem Handled.code_slot {v : ℕ} (h : Inv start w) (hd : Handled w c done (f :: rest))
    (hsplit : w.labelFixups = done ++ f :: rest)
    (hfar : w.IsFar f = true) (hv : w.areaOf f = some v) : c.code (w.slotOf f) = .data 0 := by
  have hf : f ∈ w.labelFixups := hsplit ▸ List.mem_append_right _ List.mem_cons_self
  obtain ⟨i, hi, heq⟩ := slotOf_mem h hf hfar hv
  have hmem := (mem_of_areaOf hv).1
  rw [hd.unchanged, heq, (h.area v hmem).empty i hi]
  intro g hg
  have hmem' : g ∈ w.labelFixups := hsplit ▸ List.mem_append_left _ hg
  refine ⟨heq ▸ slot_ne_off h hmem hi hmem', fun hfar' hslot => ?_⟩
  obtain ⟨-, -, -, -, ⟨hnear, -⟩ | ⟨-, ⟨v', hv'⟩, -⟩⟩ := hd.fixed g hg
  · rw [hnear] at hfar'
    cases hfar'
  · obtain rfl := slotOf_inj h hf hmem' hfar hfar' hv hv' hslot
    rw [← filter_lt h hsplit, List.mem_filter] at hg
    simpa using hg.2

theorem handleFixup_cond {l : ℕ} (hcond : f.kind.isCond = true) (hl : c.target f = some l) :
    c.handleFixup f = (c.countDown f).bind fun c => c.fixCondbr f l := by
  rw [handleFixup, hl, Option.bind_eq_bind, Option.bind_some]
  cases hkind : f.kind <;> simp_all [FixupKind.isCond]

theorem Handled.step_near {l : ℕ} (h : Inv start w) (hsize : w.offset < start + 128 * 1024 * 1024)
    (hd : Handled w c done (f :: rest)) (hsplit : w.labelFixups = done ++ f :: rest)
    (hl : w.target f = some l)
    (hnear : w.IsFar f = false) : ∃ c', c.handleFixup f = some c' ∧ Handled w c' (done ++ [f]) rest := by
  have hf : f ∈ w.labelFixups := hsplit ▸ List.mem_append_right _ List.mem_cons_self
  obtain ⟨hlt, hle, -, -⟩ := target_spec h hf hl
  have hstart := (h.fixup f hf).start_le
  obtain ⟨t, ht, hkind⟩ := (h.fixup f hf).branch
  have hl' : c.target f = some l := (hd.target_eq f).trans hl
  have hcode : c.code f.off = .branch t 0 := (hd.code_off h hsplit).trans ht
  have hrange : f.off ≤ l ∧ l - f.off < 128 * 1024 * 1024 := by omega
  have hfarIn : ∀ v, w.farIn v (done ++ [f]) = w.farIn v done := fun v => by
    rw [farIn_append]
    simp [farIn, hnear]
  have hdone (c' : FunctionWriterA64 Op) (hlabels : c'.labelOffsets = c.labelOffsets)
    (hveneers : c'.veneers = c.veneers)
      (hc' : c'.code = Function.update c.code f.off (.branch t ((l - f.off) / 4 : ℕ)))
      (hcond : w.unresolved .condBr rest ≤ c'.unresolvedCondBrs)
      (htest : w.unresolved .testBr rest ≤ c'.unresolvedTestBrs) :
      Handled w c' (done ++ [f]) rest := by
    refine hd.step h hsplit (by simp [hnear]) hlabels ?_ ⟨t, l, ht, hl,
      .inl ⟨hnear, ?_⟩⟩ (fun p hp _ => ?_) hcond htest
    · rw [hveneers, hd.veneers]
      exact List.map_congr_left fun v _ => by rw [hfarIn]
    · rw [hc', Function.update_self]
    · rw [hc', Function.update_of_ne hp]
  cases hcond : f.kind.isCond with
  | true =>
    have hreach : l - f.off < f.kind.reach := by
      simp only [IsFar, hcond, hl, Option.any_some, Bool.true_and, decide_eq_false_iff_not] at hnear
      omega
    obtain ⟨c₁, hc₁, hcode₁, hlabels₁, hveneers₁, hcond₁, htest₁⟩ := countDown_spec h hd.toPassed
    refine ⟨_, ?_, hdone { c₁ with
      code := Function.update c₁.code f.off (fillDist f.kind.nbits (l - f.off) (c₁.code f.off)) }
      hlabels₁ hveneers₁ ?_ hcond₁ htest₁⟩
    · rw [handleFixup_cond hcond hl', hc₁, Option.bind_some, fixCondbr, if_pos hrange,
        if_neg (not_le.mpr hreach)]
    · dsimp only
      rw [hcode₁, hcode, hkind, FixupKind.nbits_ofTest, fillDist_branch]
      rwa [hkind, FixupKind.reach, FixupKind.nbits_ofTest] at hreach
  | false =>
    have hbr : f.kind = .br ∧ t = .always := by
      rw [hkind] at hcond ⊢
      cases t <;> first | exact ⟨rfl, rfl⟩ | cases hcond
    obtain ⟨hbr, rfl⟩ := hbr
    have hcount := hd.condBrs
    have htests := hd.testBrs
    rw [unresolved_cons] at hcount htests
    refine ⟨_, ?_, hdone { c with
      code := Function.update c.code f.off (.branch .always ((l - f.off) / 4 : ℕ)) }
      rfl rfl rfl (by dsimp only; omega) (by dsimp only; omega)⟩
    rw [handleFixup, hl', Option.bind_eq_bind, Option.bind_some, hbr]
    dsimp only
    rw [if_pos hrange, branch_always_eq hrange.2, Option.getD_some]

/-- All branches with slots in an area are before those behind it. -/
theorem farIn_done {v : ℕ} (h : Inv start w) (hsplit : w.labelFixups = done ++ f :: rest) (hle : v ≤ f.off) :
    w.farIn v w.labelFixups = w.farIn v done := by
  have hrest : w.farIn v (f :: rest) = 0 := by
    rw [farIn, List.length_eq_zero_iff, List.filter_eq_nil_iff]
    intro g hg
    have hge : f.off ≤ g.off := by
      have hsorted := h.sorted
      rw [hsplit, List.pairwise_append, List.pairwise_cons] at hsorted
      rcases List.mem_cons.mp hg with rfl | hg
      · exact le_rfl
      · exact (hsorted.2.1.1 g hg).le
    have hnot : w.areaOf g ≠ some v := fun harea => by
      have := (mem_of_areaOf harea).2
      omega
    simp [hnot]
  rw [hsplit, farIn_append, hrest, Nat.add_zero]

/-- The areas that have a slot at or behind a branch are those behind it, if none just before it is used
up. -/
theorem le_slot_iff {v : ℕ} (h : Inv start w) (hsplit : w.labelFixups = done ++ f :: rest)
    (hused : ∀ v ∈ w.veneers, v + 4 * w.farIn v w.labelFixups ≠ f.off) (hv : v ∈ w.veneers) :
    f.off ≤ v + 4 * w.farIn v done ↔ f.off < v := by
  have hf : f ∈ w.labelFixups := hsplit ▸ List.mem_append_right _ List.mem_cons_self
  refine ⟨fun hle => not_le.mp fun hge => hused v hv ?_, fun hlt => by omega⟩
  have hall := farIn_done h hsplit hge
  have hslots := w.farIn_le_slots v
  have hapart := (h.fixup f hf).apart v hv
  omega

/-- The slot that a branch takes. -/
theorem takeSlot_eq {v : ℕ} (h : Inv start w) (hd : Passed w c done (f :: rest))
    (hsplit : w.labelFixups = done ++ f :: rest)
    (hused : ∀ v ∈ w.veneers, v + 4 * w.farIn v w.labelFixups ≠ f.off) (hfar : w.IsFar f = true)
    (hv : w.areaOf f = some v) :
    takeSlot f.off c.veneers = some (w.slotOf f, w.veneers.map fun v => v + 4 * w.farIn v (done ++ [f])) := by
  have hslot : w.slotOf f = v + 4 * w.farIn v done := by
    rw [slotOf, hv, filter_lt h hsplit]
    rfl
  have hnodup : w.veneers.Nodup := h.areas.imp fun hle heq => by omega
  rw [hd.veneers, hslot]
  refine takeSlot_map ?_ (fun u hu => ?_) (fun u hu => le_slot_iff h hsplit hused hu) hv hnodup
  · rw [farIn_append, farIn_singleton hfar hv]
    omega
  · have hnot : w.farIn u [f] = 0 := by simp [farIn, hv, hu.symm]
    rw [farIn_append, hnot, Nat.add_zero]

/-- A slot that is found, and is not the branch itself, is in an area. -/
theorem slotted_of_takeSlot {p : ℕ} {vs : List ℕ} (h : Inv start w) (hd : Passed w c done (f :: rest))
    (hsplit : w.labelFixups = done ++ f :: rest) (htake : takeSlot f.off c.veneers = some (p, vs))
    (hne : f.off ≠ p) :
    (∃ v, w.areaOf f = some v) ∧ ∀ v ∈ w.veneers, v + 4 * w.farIn v w.labelFixups ≠ f.off := by
  have hsorted : c.veneers.Pairwise (· ≤ ·) := by
    rw [hd.veneers, List.pairwise_map]
    refine h.areas.imp fun {u v} hle => ?_
    have := w.farIn_le_slots u
    have : w.farIn u done ≤ w.farIn u w.labelFixups := by
      rw [hsplit, farIn_append]
      omega
    omega
  obtain ⟨hmem, hoff, hmin⟩ := takeSlot_spec hsorted htake
  have hused : ∀ v ∈ w.veneers, v + 4 * w.farIn v w.labelFixups ≠ f.off := fun v hv heq => by
    rw [farIn_done h hsplit (by omega)] at heq
    have hle := hmin f.off (heq ▸ hd.veneers ▸ List.mem_map_of_mem hv) le_rfl
    omega
  obtain ⟨u, hu, rfl⟩ := List.mem_map.mp (hd.veneers ▸ hmem)
  refine ⟨Option.isSome_iff_exists.mp (List.find?_isSome.mpr ⟨u, hu, ?_⟩), hused⟩
  simpa using (le_slot_iff h hsplit hused hu).mp hoff

/-- A branch that takes a slot. -/
theorem handleFixup_far {l p : ℕ} {t : Test} {vs : List ℕ} (h : Inv start w)
    (hd : Passed w c done (f :: rest))
    (hcond : f.kind.isCond = true) (hl : c.target f = some l) (hrange : f.off ≤ l ∧
      l - f.off < 128 * 1024 * 1024)
    (hreach : f.kind.reach ≤ l - f.off) (htake : takeSlot f.off c.veneers = some (p, vs))
    (hzero : isZero (c.code p) = true)
    (hne : f.off ≠ p) (hcode : c.code f.off = .branch t 0) : ∃ c', c.handleFixup f = some c' ∧
      c'.code = Function.update (Function.update c.code p (veneerBranch l p)) f.off
        (fillDist f.kind.nbits (p - f.off) (.branch t 0)) ∧
      c'.labelOffsets = c.labelOffsets ∧ c'.veneers = vs ∧ w.unresolved .condBr rest ≤ c'.unresolvedCondBrs ∧
      w.unresolved .testBr rest ≤ c'.unresolvedTestBrs := by
  obtain ⟨c₁, hc₁, hcode₁, hlabels₁, hveneers₁, hcond₁, htest₁⟩ := countDown_spec h hd
  refine ⟨{ c₁ with
    code :=
      Function.update (Function.update c.code p (veneerBranch l p)) f.off
        (fillDist f.kind.nbits (p - f.off) (.branch t 0))
    veneers := vs }, ?_, rfl, hlabels₁, rfl, hcond₁, htest₁⟩
  rw [handleFixup_cond hcond hl, hc₁, Option.bind_some, fixCondbr, if_pos hrange, if_pos hreach,
    hveneers₁, htake,
    Option.bind_eq_bind, Option.bind_some]
  dsimp only
  rw [hcode₁, if_pos hzero, Function.update_of_ne hne, hcode]

theorem isFar_iff : w.IsFar f = true ↔ f.kind.isCond = true ∧ ∃ l, w.target f = some l ∧
    f.off + f.kind.reach ≤ l := by
  rw [IsFar, Bool.and_eq_true, Option.any_eq_true]
  simp

theorem Handled.step_far (h : Inv start w) (hsize : w.offset < start + 128 * 1024 * 1024)
    (hd : Handled w c done (f :: rest)) (hsplit : w.labelFixups = done ++ f :: rest)
    (hfar : w.IsFar f = true) (hserved : w.Served f) : ∃ c', c.handleFixup f = some c' ∧
      Handled w c' (done ++ [f]) rest := by
  have hf : f ∈ w.labelFixups := hsplit ▸ List.mem_append_right _ List.mem_cons_self
  obtain ⟨hcond, l, hl, hreach⟩ := isFar_iff.mp hfar
  obtain ⟨⟨v, hv, hslot⟩, hused⟩ := hserved
  obtain ⟨hlt, hle, -, -⟩ := target_spec h hf hl
  obtain ⟨t, ht, hkind⟩ := (h.fixup f hf).branch
  have hstart := (h.fixup f hf).start_le
  have hslotOf : w.slotOf f = v + 4 * w.farIn v (w.labelFixups.filter (·.off < f.off)) := by
    rw [slotOf, hv]
    rfl
  have hoff := (mem_of_areaOf hv).2
  obtain ⟨c', hc', hcode, hlabels, hveneers, hcount⟩ :=
    handleFixup_far h hd.toPassed hcond ((hd.target_eq f).trans hl) (by omega)
    (by omega)
      (takeSlot_eq h hd.toPassed hsplit hused hfar hv) (by rw [hd.code_slot h hsplit hfar hv]; rfl) (by omega)
    ((hd.code_off h hsplit).trans ht)
  refine ⟨c', hc', hd.step h hsplit (fun _ => ⟨v, hv⟩) hlabels hveneers
    ⟨t, l, ht, hl, .inr ⟨hfar, ⟨v, hv⟩, by omega, ?_, ?_⟩⟩ (fun p hp hp' => ?_) hcount.1 hcount.2⟩
  · rw [hkind, FixupKind.reach, FixupKind.nbits_ofTest] at hslot
    rw [hcode, Function.update_self, hkind, FixupKind.nbits_ofTest, fillDist_branch (by omega)]
  · rw [hcode, Function.update_of_ne (by omega), Function.update_self, veneerBranch_eq (by omega) (by omega)]
  · rw [hcode, Function.update_of_ne hp, Function.update_of_ne (hp' hfar)]

/-- A branch that was filled in with a distance that is too far. -/
def Missed (w c : FunctionWriterA64 Op) (f : LabelFixup) : Prop :=
  c.code f.off = .garbled ∨ ∃ t, ∃ imm < 0, w.code f.off = .branch t 0 ∧ c.code f.off = .branch t imm

/-- A branch that is not served fails, or is filled in with a distance that is too far. -/
theorem Handled.step_missed (h : Inv start w) (hsize : w.offset < start + 128 * 1024 * 1024)
    (hd : Handled w c done (f :: rest)) (hsplit : w.labelFixups = done ++ f :: rest)
    (hfar : w.IsFar f = true) (hnot : ¬ w.Served f) (hc' : c.handleFixup f = some c') : Missed w c' f := by
  have hf : f ∈ w.labelFixups := hsplit ▸ List.mem_append_right _ List.mem_cons_self
  obtain ⟨hcond, l, hl, hreach⟩ := isFar_iff.mp hfar
  obtain ⟨hlt, hle, -, -⟩ := target_spec h hf hl
  obtain ⟨t, ht, hkind⟩ := (h.fixup f hf).branch
  have hstart := (h.fixup f hf).start_le
  have hl' : c.target f = some l := (hd.target_eq f).trans hl
  have hcode : c.code f.off = .branch t 0 := (hd.code_off h hsplit).trans ht
  obtain ⟨p, vs, htake, hzero⟩ :
      ∃ p vs, takeSlot f.off c.veneers = some (p, vs) ∧ isZero (c.code p) = true := by
    obtain ⟨c₁, hc₁, hcode₁, -, hveneers₁, -⟩ := countDown_spec h hd.toPassed
    rw [handleFixup_cond hcond hl', hc₁, Option.bind_some, fixCondbr, if_pos (by omega),
      if_pos (by omega), hveneers₁] at hc'
    obtain ⟨⟨p, vs⟩, htake, hrest⟩ := Option.bind_eq_some_iff.mp hc'
    rw [hcode₁] at hrest
    exact ⟨p, vs, htake, (Option.ite_none_right_eq_some.mp hrest).1⟩
  -- The slot is empty, so it is not the branch itself.
  have hne : f.off ≠ p := by
    rintro rfl
    rw [hcode] at hzero
    cases hzero
  obtain ⟨⟨v, hv⟩, hused⟩ := slotted_of_takeSlot h hd.toPassed hsplit htake hne
  obtain ⟨heq, -⟩ :=
    Prod.mk.inj (Option.some.inj (htake.symm.trans (takeSlot_eq h hd.toPassed hsplit hused hfar hv)))
  have hslotOf : w.slotOf f = v + 4 * w.farIn v (w.labelFixups.filter (·.off < f.off)) := by
    rw [slotOf, hv]
    rfl
  have hmiss : f.off + f.kind.reach ≤ w.slotOf f := by
    by_contra hlt
    exact hnot ⟨⟨v, hv, by omega⟩, hused⟩
  obtain ⟨c'', hc'', hcode'', -⟩ :=
    handleFixup_far h hd.toPassed hcond hl' (by omega) (by omega) htake hzero hne hcode
  obtain rfl := Option.some.inj (hc'.symm.trans hc'')
  rw [hkind, FixupKind.reach, FixupKind.nbits_ofTest] at hmiss
  rw [heq, hkind, FixupKind.nbits_ofTest] at hcode''
  rw [Missed, hcode'', Function.update_self]
  rcases @fillDist_far Op t (w.slotOf f - f.off) (by omega) with hgarbled | ⟨imm, himm, hbranch⟩
  · exact .inl hgarbled
  · exact .inr ⟨t, imm, himm, ht, hbranch⟩

/-! ### Runs of the loop -/

/-- What is not the branch and not empty stays. -/
theorem handleFixup_code {p : ℕ} (hc' : c.handleFixup f = some c') (hp : p ≠ f.off)
    (hzero : isZero (c.code p) = false) :
    c'.code p = c.code p := by
  obtain ⟨l, hl, hrest⟩ := Option.bind_eq_some_iff.mp hc'
  cases hcond : f.kind.isCond with
  | true =>
    rw [handleFixup_cond hcond hl] at hc'
    obtain ⟨c₁, hc₁, hc'⟩ := Option.bind_eq_some_iff.mp hc'
    have hcode₁ : c₁.code = c.code := by
      rw [countDown] at hc₁
      split at hc₁
      · split at hc₁
        · obtain ⟨-, hc₁⟩ := Option.ite_none_right_eq_some.mp hc₁
          rw [← Option.some.inj hc₁]
        · obtain ⟨-, hc₁⟩ := Option.ite_none_right_eq_some.mp hc₁
          rw [← Option.some.inj hc₁]
        · rw [← Option.some.inj hc₁]
      · rw [← Option.some.inj hc₁]
    obtain ⟨-, hc'⟩ := Option.ite_none_right_eq_some.mp hc'
    split at hc'
    · obtain ⟨⟨slot, vs⟩, -, hc'⟩ := Option.bind_eq_some_iff.mp hc'
      obtain ⟨hslot, hc'⟩ := Option.ite_none_right_eq_some.mp hc'
      have hps : p ≠ slot := by
        rintro rfl
        rw [hcode₁, hzero] at hslot
        cases hslot
      rw [← Option.some.inj hc']
      dsimp only
      rw [Function.update_of_ne hp, Function.update_of_ne hps, hcode₁]
    · rw [← Option.some.inj hc']
      dsimp only
      rw [Function.update_of_ne hp, hcode₁]
  | false =>
    split at hrest
    · obtain ⟨-, hrest⟩ := Option.ite_none_right_eq_some.mp hrest
      rw [← Option.some.inj hrest]
      exact Function.update_of_ne hp ..
    · rename_i hkind
      rw [hkind] at hcond
      cases hcond
    · rename_i hkind
      rw [hkind] at hcond
      cases hcond
    · rw [← Option.some.inj hrest]
      exact Function.update_of_ne hp ..

theorem handleFixups_code {p : ℕ} (hp : ∀ f ∈ w.labelFixups, p ≠ f.off) (hzero : isZero (w.code p) = false)
    (hw : w.handleFixups = some c) : c.code p = w.code p := by
  have hrun : ∀ {fs : List LabelFixup} {w : FunctionWriterA64 Op}, (∀ f ∈ fs, p ≠ f.off) →
    isZero (w.code p) = false →
      fs.foldlM handleFixup w = some c → c.code p = w.code p := by
    intro fs
    induction fs with
    | nil =>
      intro w _ _ hw
      rw [Option.some.inj hw]
    | cons f fs ih =>
      intro w hp hzero hw
      obtain ⟨w₁, hw₁, hw⟩ := Option.bind_eq_some_iff.mp hw
      have hcode := handleFixup_code hw₁ (hp f List.mem_cons_self) hzero
      rw [ih (fun f hf => hp f (List.mem_cons_of_mem _ hf)) (hcode ▸ hzero) hw, hcode]
  exact hrun hp hzero hw

/-- A branch that missed is not filled in again. -/
theorem Missed.run : ∀ {rest : List LabelFixup} {c c' : FunctionWriterA64 Op}, Missed w c f →
    (∀ g ∈ rest, f.off ≠ g.off) →
    rest.foldlM handleFixup c = some c' → Missed w c' f
  | [], c, c', hmiss, _, hrun => by
    obtain rfl := Option.some.inj hrun
    exact hmiss
  | g :: rest, c, c', hmiss, hne, hrun => by
    obtain ⟨c₁, hc₁, hrun⟩ := Option.bind_eq_some_iff.mp hrun
    refine Missed.run ?_ (fun g hg => hne g (List.mem_cons_of_mem _ hg)) hrun
    have hzero : isZero (c.code f.off) = false := by
      rcases hmiss with hcode | ⟨t, imm, -, -, hcode⟩ <;> rw [hcode] <;> rfl
    rwa [Missed, handleFixup_code hc₁ (hne g List.mem_cons_self) hzero]

/-- **All fixups are handled** if every branch that needs a veneer is served. -/
theorem Handled.run (h : Inv start w) (hsize : w.offset < start + 128 * 1024 * 1024) :
    ∀ {rest done : List LabelFixup} {c : FunctionWriterA64 Op}, Handled w c done rest →
      w.labelFixups = done ++ rest →
      (∀ f ∈ rest, (w.target f).isSome) → (∀ f ∈ rest, w.IsFar f = true → w.Served f) →
      ∃ c', rest.foldlM handleFixup c = some c' ∧ Handled w c' w.labelFixups []
  | [], done, c, hd, hsplit, _, _ => by
    rw [List.append_nil] at hsplit
    exact ⟨c, rfl, hsplit ▸ hd⟩
  | f :: rest, done, c, hd, hsplit, htarget, hserved => by
    obtain ⟨l, hl⟩ := Option.isSome_iff_exists.mp (htarget f List.mem_cons_self)
    obtain ⟨c₁, hc₁, hd₁⟩ : ∃ c₁, c.handleFixup f = some c₁ ∧ Handled w c₁ (done ++ [f]) rest := by
      cases hfar : w.IsFar f with
      | false => exact hd.step_near h hsize hsplit hl hfar
      | true => exact hd.step_far h hsize hsplit hfar (hserved f List.mem_cons_self hfar)
    obtain ⟨c', hc', hd'⟩ := hd₁.run h hsize (by rw [hsplit, List.append_assoc, List.singleton_append])
      (fun f hf => htarget f (List.mem_cons_of_mem _ hf)) (fun f hf => hserved f (List.mem_cons_of_mem _ hf))
    exact ⟨c', by rw [List.foldlM_cons, hc₁, Option.bind_eq_bind, Option.bind_some, hc'], hd'⟩

/-- If a branch is not served then one has missed at the end. -/
theorem Handled.run_missed (h : Inv start w) (hsize : w.offset < start + 128 * 1024 * 1024) :
    ∀ {rest done : List LabelFixup} {c c' : FunctionWriterA64 Op}, Handled w c done rest →
      w.labelFixups = done ++ rest →
      (∃ f ∈ rest, w.IsFar f = true ∧ ¬ w.Served f) → rest.foldlM handleFixup c = some c' →
      ∃ f ∈ w.labelFixups, Missed w c' f
  | [], _, _, _, _, _, ⟨_, hf, _⟩, _ => by cases hf
  | f :: rest, done, c, c', hd, hsplit, hnot, hrun => by
    have hf : f ∈ w.labelFixups := hsplit ▸ List.mem_append_right _ List.mem_cons_self
    obtain ⟨c₁, hc₁, hrun⟩ := Option.bind_eq_some_iff.mp hrun
    by_cases hmiss : w.IsFar f = true ∧ ¬ w.Served f
    · refine ⟨f, hf, (hd.step_missed h hsize hsplit hmiss.1 hmiss.2 hc₁).run (fun g hg => ?_) hrun⟩
      have hsorted := h.sorted
      rw [hsplit, List.pairwise_append, List.pairwise_cons] at hsorted
      exact (hsorted.2.1.1 g hg).ne
    · obtain ⟨l, hl, -⟩ := Option.bind_eq_some_iff.mp hc₁
      obtain ⟨c₂, hc₂, hd₂⟩ : ∃ c₁, c.handleFixup f = some c₁ ∧ Handled w c₁ (done ++ [f]) rest := by
        cases hfar : w.IsFar f with
        | false => exact hd.step_near h hsize hsplit ((hd.target_eq f).symm.trans hl) hfar
        | true => exact hd.step_far h hsize hsplit hfar (not_not.mp fun hnot => hmiss ⟨hfar, hnot⟩)
      obtain rfl := Option.some.inj (hc₁.symm.trans hc₂)
      obtain ⟨g, hg, hnot⟩ := hnot
      have hg : g ∈ rest := by
        rcases List.mem_cons.mp hg with rfl | hg
        · exact absurd hnot hmiss
        · exact hg
      exact hd₂.run_missed h hsize (by rw [hsplit, List.append_assoc, List.singleton_append]) ⟨g, hg,
        hnot⟩ hrun

/-- A branch that missed does not get to its label. -/
theorem Missed.not_goesTo {l : ℕ} (h : Inv start w) (hf : f ∈ w.labelFixups) (hl : w.target f = some l)
    (hsize : w.offset < start + 128 * 1024 * 1024) (hmiss : Missed w c f) : ¬ GoesTo w c f l := by
  rintro ⟨t, p, ht, hnext, hp⟩
  have hlt : f.off < p := by
    rcases hp with rfl | ⟨⟨v, hv, hslot⟩, -⟩
    · exact (target_spec h hf hl).1
    · obtain ⟨hmem, hlt⟩ := mem_of_areaOf hv
      obtain ⟨i, -, rfl⟩ := (slotIn_iff h hsize hmem).mp hslot
      omega
  obtain ⟨s, hs⟩ := t.exists_holds
  have hnext := hnext s
  rw [if_pos hs] at hnext
  rcases hmiss with hcode | ⟨t', imm, himm, ht', hcode⟩
  · rw [hcode] at hnext
    cases hnext
  · obtain ⟨rfl, -⟩ := Inst.branch.inj (ht.symm.trans ht')
    rw [hcode, next, if_pos hs] at hnext
    have := Option.some.inj hnext
    omega

/-! ### What the text does -/

theorem next_branch {t : Test} {p l : ℕ} (s : Cpu) (hle : p ≤ l) (hp : p % 4 = 0) (hl : l % 4 = 0) :
    next s p (.branch t ((l - p) / 4 : ℕ) : Inst Op) = some (if t.holds s then (l : ℤ) else p + 4) := by
  rw [next]
  congr 2
  omega

/-- Where a branch goes when all fixups are handled. -/
theorem Fixed.goesTo {l : ℕ} (h : Inv start w) (hsize : w.offset < start + 128 * 1024 * 1024)
    (hf : f ∈ w.labelFixups)
    (hl : w.target f = some l) (hfixed : Fixed w c f) : GoesTo w c f l := by
  obtain ⟨t, l', ht, hl', hor⟩ := hfixed
  obtain rfl := Option.some.inj (hl.symm.trans hl')
  obtain ⟨hlt, -, hmod, -⟩ := target_spec h hf hl
  have halign := (h.fixup f hf).align
  rcases hor with ⟨-, hcode⟩ | ⟨hfar, ⟨v, hv⟩, hle, hcode, hveneer⟩
  · exact ⟨t, l, ht, fun s => by rw [hcode, next_branch s hlt.le halign hmod], .inl rfl⟩
  · obtain ⟨i, hi, hslot⟩ := slotOf_mem h hf hfar hv
    obtain ⟨hmem, hoff⟩ := mem_of_areaOf hv
    have hvmod := (h.area v hmem).align
    refine ⟨t, w.slotOf f, ht, fun s => by rw [hcode, next_branch s (by omega) halign (by omega)],
      .inr ⟨⟨v, hv, (slotIn_iff h hsize hmem).mpr ⟨i, hi, hslot⟩⟩, fun s => ?_⟩⟩
    rw [hveneer, next_branch s hle (by omega) hmod]
    rfl

/-- A branch gets to no slot but its own. -/
theorem Fixed.enters {v i : ℕ} {s : Cpu} (h : Inv start w) (hf : f ∈ w.labelFixups)
    (hfixed : Fixed w c f) (hv : v ∈ w.veneers)
    (hi : i < w.slots v) (hnext : next s f.off (c.code f.off) = some ((v + 4 * i : ℕ) : ℤ)) :
    w.IsFar f = true ∧ w.areaOf f = some v ∧ w.slotOf f = v + 4 * i := by
  obtain ⟨t, l, -, hl, hor⟩ := hfixed
  obtain ⟨hlt, -, hmod, hlabel⟩ := target_spec h hf hl
  have halign := (h.fixup f hf).align
  have hapart := (h.fixup f hf).apart v hv
  have hlabel := hlabel v hv
  rcases hor with ⟨-, hcode⟩ | ⟨hfar, ⟨v', hv'⟩, -, hcode, -⟩
  · rw [hcode, next_branch s hlt.le halign hmod] at hnext
    have hnext := Option.some.inj hnext
    split at hnext <;> omega
  · obtain ⟨i', hi', hslot⟩ := slotOf_mem h hf hfar hv'
    obtain ⟨hmem, hoff⟩ := mem_of_areaOf hv'
    have hvmod := (h.area v' hmem).align
    rw [hcode, next_branch s (by omega) halign (by omega)] at hnext
    have hnext := Option.some.inj hnext
    split at hnext
    · obtain rfl := area_unique h hv hmem hi hi' (by omega)
      exact ⟨hfar, hv', by omega⟩
    · omega

/-- The branch over an area stays. -/
theorem Handled.code_over {v : ℕ} (h : Inv start w) (hd : Handled w c w.labelFixups []) (hv : v ∈ w.veneers) :
    c.code (v - 4) = w.code (v - 4) := by
  have hroom := (h.area v hv).room
  refine hd.unchanged _ fun f hf => ⟨?_, fun hfar => ?_⟩
  · have := (h.fixup f hf).apart v hv
    omega
  · obtain ⟨-, -, -, -, ⟨hnear, -⟩ | ⟨-, ⟨v', hv'⟩, -⟩⟩ := hd.fixed f hf
    · rw [hnear] at hfar
      cases hfar
    · obtain ⟨i, hi, hslot⟩ := slotOf_mem h hf hfar hv'
      have hmem := (mem_of_areaOf hv').1
      by_cases heq : v = v'
      · omega
      · have := pairwise_or h.areas hv hmem heq
        omega

/-- Nothing but the branch over an area and its slots is in front of a slot. -/
theorem code_before_slot {v i q : ℕ} (h : Inv start w) (hsize : w.offset < start + 128 * 1024 * 1024)
    (hv : v ∈ w.veneers)
    (hi : i < w.slots v) (hq : q + 4 = v + 4 * i) : w.code q = .branch .always (w.slots v + 1 : ℕ) ∨
      w.code q = .data 0 := by
  rcases Nat.eq_zero_or_pos i with rfl | hpos
  · have heq : q = v - 4 := by omega
    exact .inl (heq ▸ over_eq h hsize hv)
  · have heq : q = v + 4 * (i - 1) := by omega
    exact .inr (heq ▸ (h.area v hv).empty _ (by omega))

/-- **The text is as it should be** when all fixups are handled. -/
theorem Handled.resolved (h : Inv start w) (hsize : w.offset < start + 128 * 1024 * 1024)
    (hd : Handled w c w.labelFixups []) :
    Resolved start w c where
  goesTo f hf l hl := (hd.fixed f hf).goesTo h hsize hf hl
  own f hf g hg v hv p hp s s' hnext hnext' := by
    obtain ⟨i, hi, rfl⟩ := (slotIn_iff h hsize hv).mp hp
    obtain ⟨hfar, harea, hslot⟩ := (hd.fixed f hf).enters h hf hv hi hnext
    obtain ⟨hfar', harea', hslot'⟩ := (hd.fixed g hg).enters h hg hv hi hnext'
    exact slotOf_inj h hf hg hfar hfar' harea harea' (hslot.trans hslot'.symm)
  entered v hv p hp q s _ _ _ hnext := by
    obtain ⟨i, hi, rfl⟩ := (slotIn_iff h hsize hv).mp hp
    by_cases hfix : ∃ f ∈ w.labelFixups, f.off = q
    · obtain ⟨f, hf, rfl⟩ := hfix
      exact .inl ⟨f, hf, rfl, ((hd.fixed f hf).enters h hf hv hi hnext).2.1⟩
    by_cases hslot : ∃ f ∈ w.labelFixups, w.IsFar f = true ∧ w.slotOf f = q
    · -- A veneer goes to a label, which is in no area.
      obtain ⟨f, hf, hfar, rfl⟩ := hslot
      obtain ⟨t, l, -, hl, ⟨hnear, -⟩ | ⟨-, ⟨v', hv'⟩, hle, -, hveneer⟩⟩ := hd.fixed f hf
      · rw [hnear] at hfar
        cases hfar
      · obtain ⟨i', -, hslot⟩ := slotOf_mem h hf hfar hv'
        obtain ⟨-, -, hmod, hlabel⟩ := target_spec h hf hl
        have hvmod := (h.area v' (mem_of_areaOf hv').1).align
        have hlabel := hlabel v hv
        rw [hveneer, next_branch s hle (by omega) hmod] at hnext
        have heq : (l : ℤ) = (v + 4 * i : ℕ) := Option.some.inj hnext
        omega
    · have hcode : c.code q = w.code q := hd.unchanged q fun f hf =>
        ⟨fun heq => hfix ⟨f, hf, heq.symm⟩, fun hfar heq => hslot ⟨f, hf, hfar, heq.symm⟩⟩
      rw [hcode] at hnext ⊢
      cases hw : w.code q with
      | branch t imm =>
        rw [hw, next] at hnext
        have hnext := Option.some.inj hnext
        split at hnext
        · rename_i hs
          exact .inr ⟨t, imm, rfl, rfl, hs, hnext⟩
        · rename_i hs
          rcases code_before_slot h hsize hv hi (q := q) (by omega) with hover | hempty
          · obtain ⟨rfl, -⟩ := Inst.branch.inj (hw.symm.trans hover)
            exact absurd rfl hs
          · cases hw.symm.trans hempty
      | op o =>
        rw [hw, next] at hnext
        have hnext := Option.some.inj hnext
        rcases code_before_slot h hsize hv hi (q := q) (by omega) with hover | hempty
        · cases hw.symm.trans hover
        · cases hw.symm.trans hempty
      | data x =>
        rw [hw] at hnext
        cases hnext
      | garbled =>
        rw [hw] at hnext
        cases hnext
  skips v hv := by
    refine ⟨w.slots v, over_eq h hsize hv, fun s => ?_⟩
    have hroom := (h.area v hv).room
    rw [hd.code_over h hv, over_eq h hsize hv, next]
    congr 1
    simp only [Test.holds, if_true]
    omega
  unchanged p hp := by
    by_contra hnot
    refine hp
      (hd.unchanged p fun f hf => ⟨fun heq => hnot (.inl ⟨f, hf, heq⟩), fun hfar heq => hnot (.inr ?_)⟩)
    obtain ⟨-, -, -, -, ⟨hnear, -⟩ | ⟨-, ⟨v, hv⟩, -⟩⟩ := hd.fixed f hf
    · rw [hnear] at hfar
      cases hfar
    · obtain ⟨i, hi, hslot⟩ := slotOf_mem h hf hfar hv
      have hmem := (mem_of_areaOf hv).1
      exact ⟨v, hmem, (slotIn_iff h hsize hmem).mpr ⟨i, hi, heq.trans hslot⟩⟩

theorem handleFixups_of_inv (h : Inv start w) (hsize : w.offset < start + 128 * 1024 * 1024)
    (htarget : ∀ f ∈ w.labelFixups, (w.target f).isSome) :
    (∃ w', w.handleFixups = some w' ∧ Resolved start w w') ↔ ∀ f ∈ w.labelFixups, w.IsFar f = true →
      w.Served f := by
  constructor
  · rintro ⟨w', hw', hresolved⟩
    by_contra hnot
    push Not at hnot
    obtain ⟨f, hf, hmiss⟩ := (handled_nil h).run_missed h hsize rfl hnot hw'
    obtain ⟨l, hl⟩ := Option.isSome_iff_exists.mp (htarget f hf)
    exact hmiss.not_goesTo h hf hl hsize (hresolved.goesTo f hf l hl)
  · intro hserved
    obtain ⟨w', hw', hd⟩ := (handled_nil h).run h hsize rfl htarget hserved
    exact ⟨w', hw', hd.resolved h hsize⟩

end

end FunctionWriterA64

end Tpde.Assembler
