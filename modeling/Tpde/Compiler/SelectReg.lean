import Tpde.Compiler.SelectEvict

/-!
# Scratch registers

`select_reg` takes the lowest register of a bank that is free, and evicts one if none is; `ScratchReg`
locks it until it is reset. `selectReg_eq_some_iff` says which register it is. One that is in use and
locked is never taken (`Picks.ne_of_locked`), one that is not in use can be, also where the caller still
works on it.
-/

namespace Tpde.Compiler

/-! ### The bits of the sets of registers -/

theorem getLsbD_mark (regs : BitVec 64) (reg reg' : EvictReg) :
    (regs ||| (1 : BitVec 64) <<< reg.val).getLsbD reg' = (regs.getLsbD reg' || decide (reg' = reg)) := by
  have hreg := reg.isLt
  have hreg' := reg'.isLt
  rw [BitVec.getLsbD_or, BitVec.getLsbD_shiftLeft, BitVec.ofNat_eq_ofNat, BitVec.getLsbD_one, Bool.eq_iff_iff]
  simp only [Bool.or_eq_true, Bool.and_eq_true, Bool.not_eq_true', decide_eq_true_eq,
    decide_eq_false_iff_not, Fin.ext_iff]
  refine or_congr_right ?_
  omega

theorem getLsbD_unmark (regs : BitVec 64) (reg reg' : EvictReg) :
    (regs &&& ~~~((1 : BitVec 64) <<< reg.val)).getLsbD reg' =
      (regs.getLsbD reg' && !decide (reg' = reg)) := by
  have hmark := getLsbD_mark 0 reg reg'
  rw [show (0 : BitVec 64) = 0#64 from rfl, BitVec.zero_or, BitVec.getLsbD_zero, Bool.false_or] at hmark
  rw [BitVec.getLsbD_and, BitVec.getLsbD_not, hmark, decide_eq_true reg'.isLt, Bool.true_and]

section
variable {used : BitVec 64} {lockCounts : EvictReg → BitVec 8} {assignments : EvictReg → RegAssignment}
  {valAssignment : BitVec 32 → Option PartAssignment}

/-- A locked register does not have to hold a value. -/
theorem Holds.lock (h : Holds used lockCounts assignments valAssignment) (reg : EvictReg)
    (a : RegAssignment) :
    Holds (used ||| (1 : BitVec 64) <<< reg.val) (Function.update lockCounts reg 1)
      (Function.update assignments reg a)
      valAssignment := by
  intro reg' hused hlock
  have hne : reg' ≠ reg := by
    rintro rfl
    rw [Function.update_self] at hlock
    cases hlock
  rw [getLsbD_mark, decide_eq_false hne, Bool.or_false] at hused
  rw [Function.update_of_ne hne] at hlock ⊢
  exact h reg' hused hlock

/-- Nor does one that is not in use. -/
theorem Holds.unlock (h : Holds used lockCounts assignments valAssignment) (reg : EvictReg) :
    Holds (used &&& ~~~((1 : BitVec 64) <<< reg.val)) (Function.update lockCounts reg 0) assignments
      valAssignment := by
  intro reg' hused hlock
  rw [getLsbD_unmark, Bool.and_eq_true, Bool.not_eq_true', decide_eq_false_iff_not] at hused
  rw [Function.update_of_ne hused.2] at hlock
  exact h reg' hused.1 hlock

/-- Only registers in use are locked. -/
def Unlocked (used : BitVec 64) (lockCounts : EvictReg → BitVec 8) : Prop :=
  ∀ reg : EvictReg, used.getLsbD reg = false → lockCounts reg = 0

theorem Unlocked.lock (h : Unlocked used lockCounts) (reg : EvictReg) :
    Unlocked (used ||| (1 : BitVec 64) <<< reg.val) (Function.update lockCounts reg 1) := by
  intro reg' hfree
  rw [getLsbD_mark, Bool.or_eq_false_iff, decide_eq_false_iff_not] at hfree
  rw [Function.update_of_ne hfree.2]
  exact h reg' hfree.1

theorem Unlocked.unlock (h : Unlocked used lockCounts) (reg : EvictReg) :
    Unlocked (used &&& ~~~((1 : BitVec 64) <<< reg.val)) (Function.update lockCounts reg 0) := by
  intro reg' hfree
  by_cases hne : reg' = reg
  · rw [hne, Function.update_self]
  · rw [getLsbD_unmark, decide_eq_false hne, Bool.not_false, Bool.and_true] at hfree
    rw [Function.update_of_ne hne]
    exact h reg' hfree

end

/-! ### The model -/

namespace RegFileState

variable {s s' : RegFileState} {bank : Fin 2} {exclusionMask : BitVec 64} {reg : EvictReg}

/-- `spill` stores the register: its value is not in the stack slot, and not the address of a variable. -/
def spills (s : RegFileState) (reg : EvictReg) : Bool :=
  match s.victim reg with
  | some v => !v.stackValid && !v.variableRef
  | none => false

/-- What `evict_reg` does to the register file. -/
theorem evictReg_spec (h : s.evictReg reg = some s') :
    s.lockCounts reg = 0 ∧ s'.used = s.used &&& ~~~((1 : BitVec 64) <<< reg.val) ∧
      s'.lockCounts = s.lockCounts := by
  rw [evictReg] at h
  split at h
  case isTrue => cases h
  case isFalse hnot =>
    have hfix : s.lockCounts reg = 0 := by
      by_contra hne
      exact hnot (.inl (by simpa [isFixed] using hne))
    split at h
    · cases h
    · split at h
      · cases h
        exact ⟨hfix, rfl, rfl⟩
      · cases h

theorem selectRegEvict_spec (h : s.selectRegEvict bank exclusionMask = some (reg, s')) :
    s.lockCounts reg = 0 ∧ s'.used = s.used &&& ~~~((1 : BitVec 64) <<< reg.val) ∧
      s'.lockCounts = s.lockCounts := by
  obtain ⟨candidate, -, hmap⟩ := Option.bind_eq_some_iff.mp h
  obtain ⟨s₀, hevict, heq⟩ := Option.map_eq_some_iff.mp hmap
  cases heq
  exact evictReg_spec hevict

/-- The search finds a register of the list that is not locked, if it does not keep the candidate it has. -/
theorem search_mem {regs : List EvictReg} {candidate : Option EvictReg} {maxScore : BitVec 32}
    (h : s.search regs candidate maxScore = some (some reg)) : candidate = some reg ∨ reg ∈ regs ∧
      s.isFixed reg = false := by
  induction regs generalizing candidate maxScore with
  | nil => exact .inl (Option.some.inj h)
  | cons r rs ih =>
    have hrest {candidate : Option EvictReg} {maxScore : BitVec 32}
      (h : s.search rs candidate maxScore = some (some reg)) :
        candidate = some reg ∨ reg ∈ r :: rs ∧ s.isFixed reg = false :=
      (ih h).imp_right fun hmem => ⟨List.mem_cons_of_mem _ hmem.1, hmem.2⟩
    rw [search] at h
    cases hfix : s.isFixed r with
    | true =>
      rw [if_pos hfix] at h
      exact hrest h
    | false =>
      have hself (heq : r = reg) : reg ∈ r :: rs ∧ s.isFixed reg = false := heq ▸ ⟨List.mem_cons_self, hfix⟩
      rw [if_neg (by rw [hfix]; exact Bool.false_ne_true)] at h
      cases hv : s.victim r with
      | none =>
        simp only [hv] at h
        cases h
      | some v =>
        simp only [hv] at h
        split at h
        · exact .inr (hself (Option.some.inj (Option.some.inj h)))
        · split at h
          · exact (hrest h).elim (fun heq => .inr (hself (Option.some.inj heq))) .inr
          · exact hrest h

theorem evictable_of_selectRegEvict (h : s.selectRegEvict bank exclusionMask = some (reg, s')) :
    s.Evictable bank exclusionMask reg := by
  obtain ⟨candidate, hsearch, hmap⟩ := Option.bind_eq_some_iff.mp h
  obtain ⟨s₀, -, heq⟩ := Option.map_eq_some_iff.mp hmap
  cases heq
  rcases search_mem (Option.join_eq_some_iff.mp hsearch) with hnone | hmem
  · cases hnone
  · exact evictable_iff.mpr hmem

/-- After an eviction, too, only registers in use are locked. -/
theorem unlocked_selectRegEvict (hunlocked : Unlocked s.used s.lockCounts)
    (h : s.selectRegEvict bank exclusionMask = some (reg, s')) : Unlocked s'.used s'.lockCounts := by
  obtain ⟨hlock, hused, hlocks⟩ := selectRegEvict_spec h
  have hkeep := hunlocked.unlock reg
  rwa [hused, hlocks, ← Function.update_eq_self reg s.lockCounts, hlock]

end RegFileState

/-- The register file with the registers that are not reserved and those that were clobbered. -/
structure RegFile extends RegFileState where
  allocatable : BitVec 64
  clobbered : BitVec 64
  unlocked : Unlocked used lockCounts

/-- A register that was selected, and if it was spilled for that. -/
structure Selection where
  reg : EvictReg
  spilled : Bool
  file : RegFile

namespace RegFile

variable (s : RegFile)

/-- `find_first_free_excluding`. -/
def findFirstFreeExcluding (bank : Fin 2) (exclusionMask : BitVec 64) : Option EvictReg :=
  let freeBank := s.allocatable &&& ~~~s.used &&& RegFileState.bankRegs bank
  (List.finRange 64).find? fun reg => (freeBank &&& ~~~exclusionMask).getLsbD reg

/-- `select_reg`. -/
def selectReg (bank : Fin 2) (exclusionMask : BitVec 64) : Option Selection :=
  match s.findFirstFreeExcluding bank exclusionMask with
  | some reg => some ⟨reg, false, s⟩
  | none =>
    match h : s.selectRegEvict bank exclusionMask with
    | none => none
    | some (reg, s') => some ⟨reg, s.spills reg,
        { s' with allocatable := s.allocatable, clobbered := s.clobbered
                  unlocked := RegFileState.unlocked_selectRegEvict s.unlocked h }⟩

/-- `mark_used` with no value, `mark_clobbered` and `mark_fixed`. -/
def markScratch (reg : EvictReg) : Option RegFile :=
  if s.used.getLsbD reg ∨ s.isFixed reg then none
  else some { s with
    used := s.used ||| (1 : BitVec 64) <<< reg.val
    clobbered := s.clobbered ||| (1 : BitVec 64) <<< reg.val
    lockCounts := Function.update s.lockCounts reg 1
    assignments := Function.update s.assignments reg ⟨invalidValLocalIdx, 0⟩
    holds := s.holds.lock reg _
    unlocked := s.unlocked.lock reg }

/-- `ScratchReg::alloc`. -/
def alloc (bank : Fin 2) : Option Selection :=
  (s.selectReg bank 0).bind fun sel => (sel.file.markScratch sel.reg).map fun file =>
    { sel with file := file }

theorem gpBank_lt : 0 < 2 := Nat.two_pos

/-- `ScratchReg::alloc_gp`. -/
def allocGp : Option Selection := s.alloc ⟨0, gpBank_lt⟩

theorem allocGp_eq : s.allocGp = s.alloc 0 := rfl

/-- `ScratchReg::reset`: `unmark_fixed` and `unmark_used`. -/
def reset (reg : EvictReg) : Option RegFile :=
  if s.used.getLsbD reg ∧ s.lockCounts reg = 1 then
    some { s with
      used := s.used &&& ~~~((1 : BitVec 64) <<< reg.val)
      lockCounts := Function.update s.lockCounts reg 0
      holds := s.holds.unlock reg
      unlocked := s.unlocked.unlock reg }
  else none

/-! ### The register that is selected -/

/-- A register of the bank that is free and not excluded. -/
def Free (bank : Fin 2) (exclusionMask : BitVec 64) (reg : EvictReg) : Prop :=
  s.allocatable.getLsbD reg = true ∧ s.used.getLsbD reg = false ∧ reg.val / 32 = bank ∧
    exclusionMask.getLsbD reg = false

/-- The register to select: the lowest that is free, or if none is, the one to evict. -/
def Picks (bank : Fin 2) (exclusionMask : BitVec 64) (reg : EvictReg) : Prop :=
  (s.Free bank exclusionMask reg ∧ ∀ reg', s.Free bank exclusionMask reg' → reg ≤ reg') ∨
    (∀ reg', ¬ s.Free bank exclusionMask reg') ∧ ∃ v,
      RegFileState.Selected s.toRegFileState bank exclusionMask reg v

variable {s} {bank : Fin 2} {exclusionMask : BitVec 64} {reg : EvictReg}

/-- A register that is in use and locked is not selected. -/
theorem Picks.ne_of_locked (h : s.Picks bank exclusionMask reg) {reg' : EvictReg}
    (hlock : s.lockCounts reg' ≠ 0) : reg ≠ reg' := by
  rintro rfl
  rcases h with ⟨hfree, -⟩ | ⟨-, v, hsel⟩
  · exact hlock (s.unlocked reg hfree.2.1)
  · exact hlock (by simpa [RegFileState.isFixed] using hsel.evictable.2.2.2)

theorem getLsbD_selectable :
    (s.allocatable &&& ~~~s.used &&& RegFileState.bankRegs bank &&& ~~~exclusionMask).getLsbD reg = true ↔
    s.Free bank exclusionMask reg := by
  rw [BitVec.getLsbD_and, BitVec.getLsbD_and, BitVec.getLsbD_and, BitVec.getLsbD_not, BitVec.getLsbD_not,
    RegFileState.getLsbD_bankRegs, Free]
  simp [and_assoc]

theorem findFirstFreeExcluding_eq_some_iff : s.findFirstFreeExcluding bank exclusionMask = some reg ↔
    s.Free bank exclusionMask reg ∧ ∀ reg', s.Free bank exclusionMask reg' → reg ≤ reg' := by
  rw [findFirstFreeExcluding, List.find?_eq_some_iff_getElem, getLsbD_selectable]
  refine and_congr_right fun _ => ⟨?_, fun hle => ?_⟩
  · rintro ⟨i, hi, heq, hbefore⟩ reg' hfree
    rw [List.getElem_finRange] at heq
    by_contra hlt
    have hlt : reg'.val < i := by
      rw [not_le, ← heq] at hlt
      exact hlt
    have hnot := hbefore reg'.val hlt
    rw [List.getElem_finRange] at hnot
    rw [Bool.not_eq_true', Bool.eq_false_iff] at hnot
    exact hnot (getLsbD_selectable.mpr hfree)
  · refine ⟨reg.val, by simp, by simp, fun j hj => ?_⟩
    rw [List.getElem_finRange, Bool.not_eq_true', Bool.eq_false_iff]
    exact fun hfree => absurd (hle _ (getLsbD_selectable.mp hfree)) (not_le.mpr hj)

theorem findFirstFreeExcluding_eq_none_iff : s.findFirstFreeExcluding bank exclusionMask = none ↔
    ∀ reg, ¬ s.Free bank exclusionMask reg := by
  rw [findFirstFreeExcluding, List.find?_eq_none]
  exact ⟨fun h reg => fun hfree => h reg (List.mem_finRange reg) (getLsbD_selectable.mpr hfree),
    fun h reg _ => fun hfree => h reg (getLsbD_selectable.mp hfree)⟩

/-- Only one register is picked. -/
theorem Picks.unique {reg' : EvictReg} (h : s.Picks bank exclusionMask reg)
    (h' : s.Picks bank exclusionMask reg') : reg = reg' := by
  rcases h with ⟨hfree, hle⟩ | ⟨hnone, v, hsel⟩ <;> rcases h' with ⟨hfree', hle'⟩ | ⟨hnone', v', hsel'⟩
  · exact le_antisymm (hle _ hfree') (hle' _ hfree)
  · exact absurd hfree (hnone' _)
  · exact absurd hfree' (hnone _)
  · exact hsel.unique hsel'

/-- **What `select_reg` selects**: the register that is picked, which then is neither in use nor locked. -/
theorem selectReg_spec (h : s.Picks bank exclusionMask reg) : ∃ sel,
    s.selectReg bank exclusionMask = some sel ∧ sel.reg = reg ∧
    sel.file.used.getLsbD reg = false ∧ sel.file.lockCounts reg = 0 := by
  rcases h with hlowest | ⟨hnone, v, hsel⟩
  · refine ⟨⟨reg, false, s⟩, ?_, rfl, hlowest.1.2.1, s.unlocked reg hlowest.1.2.1⟩
    rw [selectReg, findFirstFreeExcluding_eq_some_iff.mpr hlowest]
  · obtain ⟨reg₀, s', v₀, hevict, hsel₀⟩ := RegFileState.selectRegEvict_selected ⟨reg, hsel.evictable⟩
    obtain rfl := hsel.unique hsel₀
    rw [selectReg, findFirstFreeExcluding_eq_none_iff.mpr hnone]
    dsimp only
    split
    case h_1 hnone =>
      rw [hevict] at hnone
      cases hnone
    case h_2 reg₁ s₁ hsome =>
      rw [hevict] at hsome
      cases hsome
      obtain ⟨hlock, hused, hlocks⟩ := RegFileState.selectRegEvict_spec hevict
      refine ⟨_, rfl, rfl, ?_, ?_⟩
      · change s'.used.getLsbD reg = false
        rw [hused, getLsbD_unmark, decide_eq_true rfl, Bool.not_true, Bool.and_false]
      · change s'.lockCounts reg = 0
        rw [hlocks, hlock]

theorem Picks.of_selectReg {sel : Selection} (h : s.selectReg bank exclusionMask = some sel) :
    s.Picks bank exclusionMask sel.reg := by
  rw [selectReg] at h
  split at h
  case h_1 reg hfree =>
    cases h
    exact .inl (findFirstFreeExcluding_eq_some_iff.mp hfree)
  case h_2 hnone =>
    split at h
    case h_1 => cases h
    case h_2 reg s' hevict =>
      cases h
      obtain ⟨reg₀, s₀, v, hevict₀, hsel⟩ :=
        RegFileState.selectRegEvict_selected ⟨reg, RegFileState.evictable_of_selectRegEvict hevict⟩
      rw [hevict] at hevict₀
      cases hevict₀
      exact .inr ⟨findFirstFreeExcluding_eq_none_iff.mp hnone, v, hsel⟩

theorem markScratch_spec (hfree : s.used.getLsbD reg = false) (hlock : s.lockCounts reg = 0) :
    ∃ s', s.markScratch reg = some s' ∧ s'.used.getLsbD reg = true ∧ s'.lockCounts reg = 1 := by
  have hmark : ¬ (s.used.getLsbD reg = true ∨ s.isFixed reg = true) := by
    rw [hfree, RegFileState.isFixed, hlock]
    simp
  refine ⟨_, by rw [markScratch, if_neg hmark], ?_, Function.update_self ..⟩
  change (s.used ||| (1 : BitVec 64) <<< reg.val).getLsbD reg = true
  rw [getLsbD_mark, decide_eq_true rfl, Bool.or_true]

/-- **What `alloc` does**: it locks the register that is picked, which can be reset then. -/
theorem alloc_spec (h : s.Picks bank 0 reg) :
    ∃ sel s', s.alloc bank = some sel ∧ sel.reg = reg ∧ sel.file.reset reg = some s' := by
  obtain ⟨sel, hsel, rfl, hfree, hlock⟩ := selectReg_spec h
  obtain ⟨s', hmark, hused, hlocked⟩ := markScratch_spec hfree hlock
  refine ⟨{ sel with file := s' }, _, ?_, rfl, if_pos ⟨hused, hlocked⟩⟩
  rw [alloc, hsel, Option.bind_some, hmark, Option.map_some]

theorem Picks.of_alloc {sel : Selection} (h : s.alloc bank = some sel) : s.Picks bank 0 sel.reg := by
  obtain ⟨sel₀, hsel, hmap⟩ := Option.bind_eq_some_iff.mp h
  obtain ⟨s', -, rfl⟩ := Option.map_eq_some_iff.mp hmap
  have hpicks := Picks.of_selectReg hsel
  exact hpicks

end RegFile

end Tpde.Compiler
