import Tpde.Assembler.ObjectFile

/-!
# Resetting an assembler

`reset` makes an assembler like a new one, up to the temporary storage for exceptions,
which is cleared when a function begins, and the tables with the sections of symbols that
do not fit, which are not cleared.
-/

namespace Tpde.Assembler

open Bytes Elf ElfState

namespace ElfState

variable {st : ElfState}

/-- A section that is made with its symbol. -/
def madeSection (st : ElfState) (type flags name align : ℕ) (withRela : Bool) : DataSection :=
  { type := type, flags := flags, name := name, align := align, sym := st.localSymbols.length,
    isVirtual := type = shtNobits, hasRelocs := withRela }

/-- A section that is not the null section is found, and changed, where it is. -/
theorem getSection_append {pre rest : List (Option DataSection)} {sec : Option DataSection} (hpre : pre ≠ [])
    (h : st.sections = pre ++ sec :: rest) : st.getSection pre.length = sec := by
  have hpos := List.length_pos_of_ne_nil hpre
  rw [getSection, if_neg (by omega), h]
  simp

theorem modifySection_append {pre rest : List (Option DataSection)} {sec : DataSection} (hpre : pre ≠ [])
    (h : st.sections = pre ++ some sec :: rest) (f : DataSection → DataSection) :
    st.modifySection pre.length f = { st with sections := pre ++ some (f sec) :: rest } := by
  simp only [modifySection, getSection_append hpre h]
  rw [h, List.set_append_right _ _ le_rfl, Nat.sub_self, List.set_cons_zero]

/-- The symbol of a section does not change the sections. -/
theorem createSectionSymbol_sections (st : ElfState) (sections : List (Option DataSection)) (ref : ℕ)
    (name : List UInt8) :
    createSectionSymbol { st with sections := sections } ref name =
      ({ (st.createSectionSymbol ref name).1 with sections := sections }, st.localSymbols.length) := by
  simp only [createSectionSymbol, symDefXindex]
  split
  · split <;> rfl
  · rfl

theorem newSectionWith_eq (h : st.sections ≠ []) (type flags name align : ℕ) (symName : List UInt8)
    (withRela : Bool) :
    st.newSectionWith type flags name align symName withRela =
      ({ (st.createSectionSymbol st.sections.length symName).1 with
          sections := st.sections ++ some (st.madeSection type flags name align withRela) ::
            if withRela then [none] else [] }, st.sections.length) := by
  set fresh : DataSection :=
    { type := type, flags := flags, name := name, isVirtual := type = shtNobits } with hfresh
  have hrela :
    (if withRela then (st.newSection type flags name).1.reserveRela else (st.newSection type flags name).1) =
      { st with sections := st.sections ++ some fresh :: if withRela then [none] else [] } := by
    cases withRela with
    | false => rfl
    | true =>
      show { st with sections := st.sections ++ [some fresh] ++ [none] } = _
      rw [List.append_assoc]
      rfl
  rw [newSectionWith]
  simp only [hrela, createSectionSymbol_sections]
  rw [show (st.newSection type flags name).2 = st.sections.length from rfl, modifySection_append h rfl]
  rfl

/-- The sections of a new assembler. -/
def predefSection : DataSection := { type := shtNull, flags := 0, name := 0, isVirtual := false }

def textSection : DataSection :=
  { type := shtProgbits, flags := shfAlloc + shfExecinstr, name := 87, align := 16, sym := 1,
    isVirtual := false, hasRelocs := true }

def ehFrameSection : DataSection :=
  { type := shtProgbits, flags := shfAlloc, name := 22, align := 8, sym := 2, isVirtual := false,
    hasRelocs := true }

/-- The sections of a new assembler are those of its code and of its exception frames. -/
theorem initSections_eq (g l : List ℕ) (a b : ℕ) :
    initSections ⟨[], [], [nullSym], g, l, [0], [0], {}, a, b, 0⟩ =
    ⟨List.replicate 5 (some predefSection) ++ [some textSection, none, some ehFrameSection, none], [],
      [nullSym, ⟨1, symInfo stbLocal sttSection, 0, 5, 0, 0⟩,
        ⟨7, symInfo stbLocal sttSection, 0, 7, 0, 0⟩], g, l,
      [0] ++ ascii ".text" ++ [0] ++ ascii ".eh_frame" ++ [0], [0], { text := 5, ehFrame := 7 }, a, b,
        0⟩ := by
  have htext : secOff ".rela.text" = 82 := by decide +kernel
  have hehFrame : secOff ".rela.eh_frame" = 17 := by decide +kernel
  have htextName : cstring shstrtab 87 = ascii ".text" := by decide +kernel
  have hehFrameName : cstring shstrtab 22 = ascii ".eh_frame" := by decide +kernel
  have hcount : predefSecCount = 5 := by decide +kernel
  have hpredef : (List.range predefSecCount).foldl (fun st _ => (st.newSection shtNull 0 0).1)
      (⟨[], [], [nullSym], g, l, [0], [0], {}, a, b, 0⟩ : ElfState) =
        ⟨List.replicate 5 (some predefSection), [], [nullSym], g, l, [0], [0], {}, a, b, 0⟩ := by
    rw [hcount]
    rfl
  have hne₁ : ascii ".text" ≠ [] := by decide +kernel
  have hne₂ : ascii ".eh_frame" ≠ [] := by decide +kernel
  have hlen : ([0] ++ ascii ".text" ++ [0]).length = 7 := by decide +kernel
  have hsym₁ : (createSectionSymbol
      (⟨List.replicate 5 (some predefSection), [], [nullSym], g, l, [0], [0], {}, a, b, 0⟩ : ElfState) 5
        (ascii ".text")).1 =
        ⟨List.replicate 5 (some predefSection), [],
          [nullSym, ⟨1, symInfo stbLocal sttSection, 0, 5, 0, 0⟩], g, l,
          [0] ++ ascii ".text" ++ [0], [0], {}, a, b, 0⟩ := by
    simp only [createSectionSymbol, strtabAdd, if_neg hne₁]
    rfl
  have hsym₂ (sections : List (Option DataSection)) : (createSectionSymbol
      (⟨sections, [], [nullSym, ⟨1, symInfo stbLocal sttSection, 0, 5, 0, 0⟩], g, l,
        [0] ++ ascii ".text" ++ [0], [0],
        { text := 5 }, a, b, 0⟩ : ElfState) 7 (ascii ".eh_frame")).1 =
        ⟨sections, [],
          [nullSym, ⟨1, symInfo stbLocal sttSection, 0, 5, 0, 0⟩,
          ⟨7, symInfo stbLocal sttSection, 0, 7, 0, 0⟩],
          g, l, [0] ++ ascii ".text" ++ [0] ++ ascii ".eh_frame" ++ [0], [0], { text := 5 }, a, b, 0⟩ := by
    simp only [createSectionSymbol, strtabAdd, if_neg hne₂, hlen]
    rfl
  have h₁ :=
    @newSectionWith_eq ⟨List.replicate 5 (some predefSection), [], [nullSym], g, l, [0], [0], {}, a, b, 0⟩
    (List.cons_ne_nil _ _) shtProgbits (shfAlloc + shfExecinstr) 87 16 (ascii ".text") true
  rw [show (⟨List.replicate 5 (some predefSection), [], [nullSym], g, l, [0], [0], {}, a, b,
    0⟩ : ElfState).sections.length = 5
    from rfl, hsym₁] at h₁
  have h₂ := @newSectionWith_eq ⟨List.replicate 5 (some predefSection) ++ [some textSection, none], [],
    [nullSym, ⟨1, symInfo stbLocal sttSection, 0, 5, 0, 0⟩], g, l, [0] ++ ascii ".text" ++ [0], [0],
      { text := 5 }, a, b, 0⟩
    (List.cons_ne_nil _ _) shtProgbits shfAlloc 22 8 (ascii ".eh_frame") true
  rw [show (⟨List.replicate 5 (some predefSection) ++ [some textSection, none], [],
    [nullSym, ⟨1, symInfo stbLocal sttSection, 0, 5, 0, 0⟩], g, l, [0] ++ ascii ".text" ++ [0], [0],
      { text := 5 }, a, b, 0⟩ :
      ElfState).sections.length = 7 from rfl, hsym₂] at h₂
  rw [initSections]
  simp only [hpredef, getOrCreateSection, htext, hehFrame, ne_eq, not_true_eq_false, if_false, if_true,
    htextName, hehFrameName]
  rw [h₁]
  exact (congrArg (fun x : ElfState × ℕ => { x.1 with refs := { x.1.refs with
    ehFrame := x.2 } }) h₂).trans rfl

/-- The first common entry does not depend on where the last one was. -/
theorem ehInitCie_empty (target : TargetInfo) (a b : ℕ) :
    EhState.ehInitCie target ⟨[], [], a, b, 0⟩ 0 = EhState.ehInitCie target ⟨[], [], 0, 0, 0⟩ 0 := by
  simp only [EhState.ehInitCie, EhState.write, if_true, List.length_nil]

/-- The exception frames of a new assembler. -/
def initEh (target : TargetInfo) : EhState := EhState.ehInitCie target ⟨[], [], 0, 0, 0⟩ 0

/-- A new assembler. -/
theorem modifyEh_initSections (target : TargetInfo) (g l : List ℕ) (a b : ℕ) :
    (initSections ⟨[], [], [nullSym], g, l, [0], [0], {}, a, b, 0⟩).modifyEh
      (fun eh => eh.ehInitCie target 0) =
      ⟨List.replicate 5 (some predefSection) ++ [some textSection, none,
          some { ehFrameSection with data := (initEh target).data, relocs := (initEh target).relocs },
            none], [],
        [nullSym, ⟨1, symInfo stbLocal sttSection, 0, 5, 0, 0⟩,
          ⟨7, symInfo stbLocal sttSection, 0, 7, 0, 0⟩], g, l,
        [0] ++ ascii ".text" ++ [0] ++ ascii ".eh_frame" ++ [0], [0], { text := 5, ehFrame := 7 },
        (initEh target).ehCurCieOff, (initEh target).ehFirstFdeOff,
          (initEh target).curPersonalityFuncAddr⟩ := by
  have hehState (a b : ℕ) :
    EhState.ehInitCie target ⟨ehFrameSection.data, ehFrameSection.relocs, a, b, 0⟩ 0 = initEh target :=
    ehInitCie_empty target a b
  rw [initSections_eq]
  set st : ElfState :=
    ⟨List.replicate 5 (some predefSection) ++ [some textSection, none, some ehFrameSection, none], [],
    [nullSym, ⟨1, symInfo stbLocal sttSection, 0, 5, 0, 0⟩,
      ⟨7, symInfo stbLocal sttSection, 0, 7, 0, 0⟩], g, l,
    [0] ++ ascii ".text" ++ [0] ++ ascii ".eh_frame" ++ [0], [0], { text := 5, ehFrame := 7 }, a, b,
      0⟩ with hst
  have hsec : st.getSection st.refs.ehFrame = some ehFrameSection := by
    rw [getSection, if_neg (show st.refs.ehFrame ≠ 0 from Nat.succ_ne_zero 6)]
    rfl
  have heh : (st.ehState ehFrameSection).ehInitCie target 0 = initEh target := hehState a b
  simp only [modifyEh, modifySection, hsec, heh]
  rfl

/-- **Resetting** leaves the tables with the sections of symbols, and nothing else. -/
theorem reset_eq (target : TargetInfo) (h : resize nullSym st.localSymbols 1 = [nullSym]) :
    st.reset target = { init target with globalShndx := st.globalShndx, localShndx := st.localShndx } := by
  have hinit := modifyEh_initSections target [] [] 0 0
  have hreset := modifyEh_initSections target st.globalShndx st.localShndx st.ehCurCieOff st.ehFirstFdeOff
  rw [reset, h, init]
  refine hreset.trans ?_
  rw [show resize nullSym [] 1 = [nullSym] from rfl, hinit]

end ElfState

end Tpde.Assembler
