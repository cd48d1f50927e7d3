import Tpde.Assembler.FrameWriter
import Tpde.Assembler.ObjectFile
import Tpde.Assembler.Tables

/-!
# Running a reset assembler

What can be seen of an assembler are the references to its sections, its symbols with
their sections, and the object file. An assembler that was reset shows the same as a new
one after all calls, if and only if the tables with the sections of symbols and those for
exceptions were empty and its writer of exception frames had nothing to flush to another
buffer (`reset_observe_iff`). `reset` clears none of these tables, and `build_object_file`
asserts that the former are empty as long as there are few sections.
-/

namespace Tpde.Assembler

open Bytes Elf ElfState
open WritingAssembler (WriterInv run new checked run_erase inlineCapacity)

/-- What can be seen of an assembler. -/
structure Observation where
  refs : SecRefs
  localSymbols : List Sym
  globalSymbols : List Sym
  symSection : ℕ → Option ℕ
  object : Option (List UInt8)

/-- What can be seen of a state. -/
def ElfState.observe (target : TargetInfoElf) (st : ElfState) : Observation :=
  ⟨st.refs, st.localSymbols, st.globalSymbols, st.symSection, st.buildObjectFile target⟩

/-- What can be seen of an assembler, when its exception frames are finalized: its temporary storage for
exceptions cannot. -/
def WritingAssembler.observe (target : TargetInfoElf) (st : WritingAssembler) : Observation :=
  st.asm.elf.observe target

/-- The functions for exception tables are called in functions, which begin with `except_begin_func`. -/
def InFunctions : List WriterOp → Prop
  | [] => True
  | .call .exceptBeginFunc :: _ => True
  | .call (.except _) :: _ | .call (.exceptEncodeFunc _ _) :: _ => False
  | _ :: ops => InFunctions ops

/-- After some calls, an assembler that is reset shows the same as a new one. -/
def SameAfter (target : TargetInfoElf) (st : WritingAssembler) (ops : List WriterOp) : Prop :=
  ((st.reset target.toTargetInfo).bind fun st => run target.toTargetInfo st ops).map
    (WritingAssembler.observe target) =
    (run target.toTargetInfo (new target.toTargetInfo) ops).map (WritingAssembler.observe target)

variable {target : TargetInfoElf}

/-! ### Runs -/

/-- The temporary storage that there was before the first function does not matter. -/
theorem run_elf (elf : ElfState) (except except' : ExceptState) (w : EhWriter) {ops : List WriterOp}
    (h : InFunctions ops) :
    (run target.toTargetInfo ⟨⟨elf, except⟩, w⟩ ops).map (fun st => st.asm.elf) =
      (run target.toTargetInfo ⟨⟨elf, except'⟩, w⟩ ops).map fun st => st.asm.elf := by
  induction ops generalizing elf w with
  | nil => rfl
  | cons op ops ih =>
    have hchecked (elf : ElfState) (w : EhWriter) (h : InFunctions ops) :
        ((checked ⟨elf, except⟩ w).bind fun st => run target.toTargetInfo st ops).map (fun st => st.asm.elf) =
          ((checked ⟨elf, except'⟩ w).bind fun st => run target.toTargetInfo st ops).map fun st =>
            st.asm.elf := by
      rw [checked, checked]
      split
      · exact ih elf w h
      · rfl
    rw [run, run]
    cases op with
    | call op =>
      cases op with
      | elf op =>
        rw [WritingAssembler.step, WritingAssembler.step]
        split
        · rw [AssemblerElf.step, AssemblerElf.step]
          cases elf.step target.toTargetInfo op with
          | none => rfl
          | some elf' => exact hchecked elf' _ h
        · rfl
      | exceptBeginFunc => rfl
      | except op => exact h.elim
      | exceptEncodeFunc func labelOffsets => exact h.elim
    | ehWriteInst opcode arg =>
      rw [WritingAssembler.step, WritingAssembler.step]
      split
      · exact hchecked _ _ h
      · rfl
    | ehWriteInst₂ opcode firstArg secondArg =>
      rw [WritingAssembler.step, WritingAssembler.step]
      split
      · exact hchecked _ _ h
      · rfl
    | finalize => exact ih elf _ h

/-- The null symbol is still there after any calls. -/
theorem resize_localSymbols {st : ElfState} (h : Inv st) : resize nullSym st.localSymbols 1 = [nullSym] := by
  have hnull := h.shape.null
  cases hlocals : st.localSymbols with
  | nil =>
    rw [hlocals] at hnull
    cases hnull
  | cons s ss =>
    rw [hlocals] at hnull
    cases hnull
    simp [resize]

/-- With few sections, no object file is built when there are sections of symbols in the tables. -/
theorem buildObjectFile_few {st : ElfState} (hfew : st.sections.length < shnLoreserve)
    (h : ¬(st.localShndx = [] ∧ st.globalShndx = [])) : st.buildObjectFile target = none := by
  rw [buildObjectFile, blocks]
  simp only [if_neg (not_le.mpr hfew), if_neg h, Option.bind_fun_none, Option.map_none]

/-- A new assembler. -/
theorem init_eq (target : TargetInfo) : ∃ a b c, init target =
    ⟨List.replicate 5 (some predefSection) ++ [some textSection, none,
        some { ehFrameSection with data := (initEh target).data, relocs := (initEh target).relocs },
          none], [],
      [nullSym, ⟨1, symInfo stbLocal sttSection, 0, 5, 0, 0⟩,
        ⟨7, symInfo stbLocal sttSection, 0, 7, 0, 0⟩], [], [],
      [0] ++ ascii ".text" ++ [0] ++ ascii ".eh_frame" ++ [0], [0], { text := 5, ehFrame := 7 }, a, b, c⟩ :=
  ⟨_, _, _, modifyEh_initSections target [] [] 0 0⟩

theorem init_sections_length (target : TargetInfo) : (init target).sections.length = 9 := by
  obtain ⟨a, b, c, h⟩ := init_eq target
  rw [h]
  rfl

theorem init_localSymbols_length (target : TargetInfo) : (init target).localSymbols.length = 3 := by
  obtain ⟨a, b, c, h⟩ := init_eq target
  rw [h]
  rfl

theorem init_shndx (target : TargetInfo) : (init target).localShndx = [] ∧
    (init target).globalShndx = [] := by
  obtain ⟨a, b, c, h⟩ := init_eq target
  rw [h]
  exact ⟨rfl, rfl⟩

theorem init_bss (target : TargetInfo) : (init target).refs.bss = 0 := by
  obtain ⟨a, b, c, h⟩ := init_eq target
  rw [h]

/-- A new assembler has an object file. -/
theorem buildObjectFile_init (target : TargetInfoElf) : ∃ bytes,
    (init target.toTargetInfo).buildObjectFile target = some bytes := by
  have hshndx := init_shndx target.toTargetInfo
  have hfew : ¬shnLoreserve ≤ (init target.toTargetInfo).sections.length := by
    rw [init_sections_length]
    decide
  have hsections : ∃ blocks, (init target.toTargetInfo).sectionBlocks predefSecCount
      (64 + 64 * (init target.toTargetInfo).secCount +
        blocksLength
          ((init target.toTargetInfo).predefBlocks (64 + 64 * (init target.toTargetInfo).secCount)))
      ((init target.toTargetInfo).sections.drop predefSecCount) = some blocks := by
    generalize 64 + 64 * (init target.toTargetInfo).secCount +
        blocksLength
          ((init target.toTargetInfo).predefBlocks (64 + 64 * (init target.toTargetInfo).secCount)) = off
    obtain ⟨a, b, c, h⟩ := init_eq target.toTargetInfo
    rw [predefSecCount_eq, h]
    exact ⟨_, rfl⟩
  obtain ⟨blocks, hblocks⟩ := hsections
  rw [buildObjectFile, ElfState.blocks]
  simp only [hblocks, Option.bind_some, if_neg hfew, if_pos hshndx]
  exact ⟨_, rfl⟩

theorem init_personality (target : TargetInfo) : (init target).curPersonalityFuncAddr = 0 := by
  obtain ⟨n, -, -, -, -, hpersonality⟩ := @ehInitCie_spec target ⟨[], [], 0, 0, 0⟩ 0 (dvd_zero 8)
  have hinit := congrArg ElfState.curPersonalityFuncAddr (modifyEh_initSections target [] [] 0 0)
  exact hinit.trans hpersonality

/-! ### Resetting -/

/-- **Resetting** leaves a new writer, if there is nothing to flush to another buffer. -/
theorem reset_of_flushed {target : TargetInfo} {st : WritingAssembler} (h : WriterInv st)
    (hflushed : st.Flushed) :
    st.reset target = some ⟨st.asm.reset target, (new target).writer⟩ := by
  have hfits := h.fits
  have hcur := h.cur
  rw [EhWriter.Fits] at hfits
  have hcap : ((⟨inlineCapacity, 0, st.writer.stop⟩ : EhWriter).flush st.asm.elf.ehSize).capacity =
    inlineCapacity := by
    rw [EhWriter.flush]
    split
    · rename_i hne
      have hle : st.writer.capacity ≤ inlineCapacity := hflushed.resolve_left hne
      exact if_neg (by dsimp only; omega)
    · rfl
  have hreserve {w : EhWriter} (hstop : w.stop = 0) : w.reserve 0 (32 + target.cieInstrs.length) =
      (⟨w.capacity, 0, 0⟩ : EhWriter).reserve 0 (32 + target.cieInstrs.length) := by
    rw [EhWriter.reserve, EhWriter.reserve, hstop]
    split
    · rfl
    · omega
  rw [WritingAssembler.reset, if_neg fun hbad => ?_]
  · refine congrArg some (congrArg (WritingAssembler.mk _) ?_)
    rw [EhWriter.ehInitCie, hreserve rfl]
    dsimp only
    rw [hcap]
    rfl
  · rcases hflushed with heq | hle
    · exact hbad.2 heq
    · omega

/-- What is left of the old assembler is its storage for exceptions. -/
theorem reset_of_empty {st : WritingAssembler} (h : WriterInv st) (helf : Inv st.asm.elf)
    (hshndx : st.asm.elf.localShndx = [] ∧ st.asm.elf.globalShndx = []) (hflushed : st.Flushed) :
    st.reset target.toTargetInfo = some ⟨⟨init target.toTargetInfo, st.asm.except⟩,
      (new target.toTargetInfo).writer⟩ := by
  have hreset := reset_eq target.toTargetInfo (resize_localSymbols helf)
  have hinit := init_shndx target.toTargetInfo
  rw [hshndx.1.trans hinit.1.symm, hshndx.2.trans hinit.2.symm] at hreset
  rw [reset_of_flushed h hflushed, AssemblerElf.reset, hreset]

/-- If an assembler that is reset has the same object file as a new one, its tables were empty and there
was nothing to flush. -/
theorem empty_of_sameAfter {st : WritingAssembler} (h : WriterInv st) (helf : Inv st.asm.elf)
    (hsame : SameAfter target st []) :
    (st.asm.elf.localShndx = [] ∧ st.asm.elf.globalShndx = []) ∧ st.Flushed := by
  obtain ⟨bytes, hbytes⟩ := buildObjectFile_init target
  have hflushed : st.Flushed := by
    by_contra hno
    rw [WritingAssembler.Flushed, not_or, not_le] at hno
    have hreset : st.reset target.toTargetInfo = none := if_pos ⟨hno.2, hno.1⟩
    rw [SameAfter, hreset] at hsame
    cases hsame
  refine ⟨?_, hflushed⟩
  by_contra hshndx
  have hreset := reset_eq target.toTargetInfo (resize_localSymbols helf)
  have hnone : (st.asm.reset target.toTargetInfo).elf.buildObjectFile target = none := by
    refine buildObjectFile_few ?_ ?_
    · rw [AssemblerElf.reset, hreset, init_sections_length]
      decide
    · rw [AssemblerElf.reset, hreset]
      exact hshndx
  rw [SameAfter, reset_of_flushed h hflushed] at hsame
  have hobject := congrArg (Option.map Observation.object) hsame
  simp only [run, Option.bind_some, Option.map_some, WritingAssembler.observe, ElfState.observe, hnone,
    new, AssemblerElf.new, hbytes] at hobject
  cases hobject

/-- An action and the end of a function that has no personality, where the tables must be as after
`except_begin_func`. -/
def exceptProbe : List WriterOp :=
  [.call (.except (.addAction true 0)), .call (.exceptEncodeFunc 0 fun _ => 0)]

/-- The probe has a result if and only if there was nothing in the tables. -/
theorem run_exceptProbe (target : TargetInfo) (except : ExceptState) :
    (run target ⟨⟨init target, except⟩, (new target).writer⟩ exceptProbe).isSome ↔
      except = ⟨[], [], [], []⟩ := by
  have hcur : (init target).ehSize ≤ (new target).writer.stop := (WriterInv.new target).cur
  have hlen : (except.step (.addAction true 0)).actionTable.length = except.actionTable.length + 2 := by
    show (except.actionTable ++ Util.slebWrite 1 ++ [0]).length = _
    rw [List.length_append, List.length_append]
    rfl
  have hchecked (except : ExceptState) : checked ⟨init target, except⟩ (new target).writer =
      some ⟨⟨init target, except⟩, (new target).writer⟩ := if_pos hcur
  have hfirst :
    WritingAssembler.step target ⟨⟨init target, except⟩, (new target).writer⟩
    (.call (.except (.addAction true 0))) =
      some ⟨⟨init target, except.step (.addAction true 0)⟩, (new target).writer⟩ := hchecked _
  rw [exceptProbe, run, hfirst, Option.bind_some, run, WritingAssembler.step_call rfl,
    AssemblerElf.step, exceptEncodeFunc,
    if_pos (init_personality target), hlen]
  by_cases hempty : except = ⟨[], [], [], []⟩
  · subst hempty
    rw [if_pos ⟨rfl, rfl, rfl, rfl⟩, Option.map_some, Option.bind_some]
    refine iff_of_true ?_ rfl
    show ((checked ⟨init target, (⟨[], [], [], []⟩ : ExceptState).step (.addAction true 0)⟩
      (new target).writer).bind some).isSome = true
    rw [hchecked]
    rfl
  · rw [if_neg fun h => hempty ?_]
    · exact iff_of_false Bool.false_ne_true hempty
    · obtain ⟨hsites, htypes, hspec, hactions⟩ := h
      have hactions : except.actionTable = [] := List.eq_nil_of_length_eq_zero (by omega)
      obtain ⟨sites, actions, types, spec⟩ := except
      dsimp only at hactions
      have hsites : sites = [] := hsites
      have htypes : types = [] := htypes
      have hspec : spec = [] := hspec
      rw [hactions, hsites, htypes, hspec]

/-- **An assembler that was reset** shows the same as a new one after all calls, if and only if its
tables with the sections of symbols and its tables for exceptions were empty, and its writer was flushed
or wrote to the section itself. For calls that use the tables for exceptions in functions only, these do
not matter. -/
theorem reset_observe_iff {ops : List WriterOp} {st : WritingAssembler}
    (h : run target.toTargetInfo (new target.toTargetInfo) ops = some st) :
    ((∀ ops', SameAfter target st ops') ↔
      ((st.asm.elf.localShndx = [] ∧ st.asm.elf.globalShndx = []) ∧ st.Flushed) ∧
        st.asm.except = ⟨[], [], [], []⟩) ∧
    ((∀ ops', InFunctions ops' → SameAfter target st ops') ↔
      (st.asm.elf.localShndx = [] ∧ st.asm.elf.globalShndx = []) ∧ st.Flushed) := by
  have hwriter : WriterInv st := (WriterInv.new target.toTargetInfo).run h
  have helf : Inv st.asm.elf := AssemblerElf.run_inv (run_erase h)
  refine ⟨⟨fun hsame => ?_, ?_⟩, fun hsame => empty_of_sameAfter hwriter helf (hsame [] trivial), ?_⟩
  · obtain ⟨hshndx, hflushed⟩ := empty_of_sameAfter hwriter helf (hsame [])
    refine ⟨⟨hshndx, hflushed⟩, (run_exceptProbe target.toTargetInfo st.asm.except).mp ?_⟩
    have hprobe := congrArg Option.isSome (hsame exceptProbe)
    rw [reset_of_empty hwriter helf hshndx hflushed, Option.bind_some, Option.isSome_map,
      Option.isSome_map] at hprobe
    exact hprobe.trans ((run_exceptProbe target.toTargetInfo ⟨[], [], [], []⟩).mpr rfl)
  · rintro ⟨⟨hshndx, hflushed⟩, hexcept⟩ ops'
    rw [SameAfter, reset_of_empty hwriter helf hshndx hflushed, hexcept]
    rfl
  · rintro ⟨hshndx, hflushed⟩ ops' hops'
    have hrun := congrArg (Option.map (ElfState.observe target))
      (@run_elf target (init target.toTargetInfo) st.asm.except ⟨[], [], [],
        []⟩ (new target.toTargetInfo).writer _ hops')
    rw [Option.map_map, Option.map_map] at hrun
    rw [SameAfter, reset_of_empty hwriter helf hshndx hflushed, Option.bind_some]
    exact hrun

/-- The assembler that has a section for zeroes. -/
def withBss : WritingAssembler :=
  ⟨⟨(init targetInfoA64).getBssSection, ⟨[], [], [], []⟩⟩, (new targetInfoA64).writer⟩

/-- It is made like new, although it was not finalized. -/
theorem reset_observe_bss :
    (((∀ ops', SameAfter targetInfoElfA64 withBss ops') ↔
      ((withBss.asm.elf.localShndx = [] ∧ withBss.asm.elf.globalShndx = []) ∧ withBss.Flushed) ∧
        withBss.asm.except = ⟨[], [], [], []⟩) ∧
    ((∀ ops', InFunctions ops' → SameAfter targetInfoElfA64 withBss ops') ↔
      (withBss.asm.elf.localShndx = [] ∧ withBss.asm.elf.globalShndx = []) ∧ withBss.Flushed)) ∧
      (withBss.asm.elf.localShndx = [] ∧ withBss.asm.elf.globalShndx = []) ∧ withBss.Flushed :=
  ⟨@reset_observe_iff targetInfoElfA64 [.call (.elf .getBssSection)]
    withBss (by decide +kernel), by decide +kernel,
    .inr (by decide +kernel)⟩

/-! ### Many sections -/

/-- A group is a section more. -/
theorem createGroupSection_eq {st : ElfState} (h : st.sections ≠ []) (signatureSym : ℕ) (isComdat : Bool) :
    ∃ sec, (st.createGroupSection signatureSym isComdat).1 = { st with
      sections := st.sections ++ [some sec] } := by
  simp only [createGroupSection, newSection]
  rw [modifySection_append h rfl, writeU32, modifySection_append h rfl]
  exact ⟨_, rfl⟩

theorem run_append {target : TargetInfo} (ops ops' : List WriterOp) (st : WritingAssembler) :
    run target st (ops ++ ops') =
    (run target st ops).bind fun st => run target st ops' := by
  induction ops generalizing st with
  | nil => rfl
  | cons op ops ih =>
    rw [List.cons_append, run, run, Option.bind_assoc]
    exact congrArg _ (funext ih)

/-- More sections do not change the exception frames. -/
theorem ehSize_append {st st' : ElfState} {rest : List (Option DataSection)}
    (hrefs : st'.refs.ehFrame = st.refs.ehFrame)
    (hlt : st.refs.ehFrame < st.sections.length) (hsections : st'.sections = st.sections ++ rest) :
      st'.ehSize = st.ehSize := by
  rw [ElfState.ehSize, ElfState.ehSize, getSection, getSection, hrefs, hsections,
    List.getD_eq_getElem?_getD, List.getD_eq_getElem?_getD,
    List.getElem?_append_left hlt]

/-- An assembler with more sections. -/
def WritingAssembler.addSections (st : WritingAssembler) (sections : List (Option DataSection)) :
    WritingAssembler :=
  { st with asm := { st.asm with elf := { st.asm.elf with sections := st.asm.elf.sections ++ sections } } }

theorem addSections_inv {st : WritingAssembler} (h : WriterInv st)
    (hlt : st.asm.elf.refs.ehFrame < st.asm.elf.sections.length)
    (sections : List (Option DataSection)) : WriterInv (st.addSections sections) :=
  ⟨h.fits, (@ehSize_append st.asm.elf (st.addSections sections).asm.elf sections rfl hlt rfl).trans_le h.cur⟩

/-- Groups are sections more. -/
theorem run_groups {target : TargetInfo} (signatureSym : ℕ) (isComdat : Bool) (n : ℕ)
    {st : WritingAssembler} (h : WriterInv st)
    (hlt : st.asm.elf.refs.ehFrame < st.asm.elf.sections.length) :
    ∃ sections : List (Option DataSection), sections.length = n ∧
      run target st (List.replicate n (.call (.elf (.createGroupSection signatureSym isComdat)))) =
        some (st.addSections sections) := by
  induction n generalizing st with
  | zero =>
    refine ⟨[], rfl, ?_⟩
    rw [WritingAssembler.addSections, List.append_nil]
    rfl
  | succ n ih =>
    obtain ⟨sec, hsec⟩ :=
      createGroupSection_eq (List.ne_nil_of_length_pos (Nat.zero_lt_of_lt hlt)) signatureSym isComdat
    have hinv := addSections_inv h hlt [some sec]
    have hstep : st.step target (.call (.elf (.createGroupSection signatureSym isComdat))) =
      some (st.addSections [some sec]) := by
      rw [WritingAssembler.step_call rfl, AssemblerElf.step, ElfState.step, hsec]
      exact if_pos hinv.cur
    have hlt' : st.asm.elf.refs.ehFrame < (st.asm.elf.sections ++ [some sec]).length := by
      rw [List.length_append]
      omega
    obtain ⟨sections, hlen, hrun⟩ := ih hinv hlt'
    refine ⟨some sec :: sections, congrArg Nat.succ hlen, ?_⟩
    rw [List.replicate_succ, run, hstep, Option.bind_some, hrun]
    simp only [WritingAssembler.addSections, List.append_assoc, List.singleton_append]

/-- The section of a symbol is in a table when there are many sections. -/
theorem getBssSection_localShndx {st : ElfState} (hbss : st.refs.bss = 0)
    (hmany : shnLoreserve ≤ st.sections.length)
    (hlocals : st.localSymbols.length < 2 ^ 31) : st.getBssSection.localShndx ≠ [] := by
  have hne : st.sections ≠ [] := by
    intro hnil
    rw [hnil] at hmany
    exact absurd hmany (by decide)
  rw [getBssSection]
  generalize secOff ".bss" = name
  rw [getOrCreateSection, if_neg (not_not.mpr hbss), newSectionWith_eq hne]
  generalize cstring shstrtab _ = symName
  have hlocal : symIsLocal st.localSymbols.length = true := by
    rw [symIsLocal, decide_eq_true_eq]
    exact hlocals
  have hxindex : secIsXindex st.sections.length = true := by
    rw [secIsXindex, decide_eq_true_eq]
    exact hmany
  simp only [createSectionSymbol, if_pos hxindex, symDefXindex, if_pos hlocal]
  exact setShndx_ne_nil _ _ _

theorem getBssSection_ehSize {st : ElfState} (hbss : st.refs.bss = 0)
    (hlt : st.refs.ehFrame < st.sections.length) :
    st.getBssSection.ehSize = st.ehSize := by
  have hne : st.sections ≠ [] := List.ne_nil_of_length_pos (Nat.zero_lt_of_lt hlt)
  have hrefs (name : List UInt8) : (st.createSectionSymbol st.sections.length name).1.refs = st.refs := by
    simp only [createSectionSymbol, symDefXindex]
    split
    · split <;> rfl
    · rfl
  rw [getBssSection]
  generalize secOff ".bss" = name
  rw [getOrCreateSection, if_neg (not_not.mpr hbss), newSectionWith_eq hne]
  generalize cstring shstrtab _ = symName
  refine ehSize_append ?_ hlt rfl
  show (st.createSectionSymbol st.sections.length symName).1.refs.ehFrame = st.refs.ehFrame
  rw [hrefs]

/-- A symbol, 0xff00 groups and a section behind them. -/
def manySections : List WriterOp :=
  .call (.elf (.symAdd (ascii "g") .globalSym sttNotype)) ::
    (List.replicate 0xff00 (.call (.elf (.createGroupSection (2 ^ 31) true))) ++
      [.call (.elf .getBssSection)])

/-- Entries that the section has no room for in itself, and that are not finalized. -/
def manyFrames : List WriterOp :=
  [.call (.elf (.symAdd (ascii "f") .localSym sttNotype)), .call (.elf (.symDef 3 5 0 16))] ++
    (List.range 10).flatMap fun i => [.call (.elf (.ehBeginFde 0)), .call (.elf (.ehEndFde (24 + 24 * i) 3))]

/-- **The tables are not cleared**: an assembler that had a section behind 0xff00 groups, and was reset,
has no object file, and a new one has. And with frames that are not finalized, the old cursor is used.
-/
theorem reset_manySections :
    (∃ st, run targetInfoA64 (new targetInfoA64) manySections = some st ∧
      ¬ SameAfter targetInfoElfA64 st []) ∧
      ∃ st, run targetInfoA64 (new targetInfoA64) manyFrames = some st ∧
        ¬ SameAfter targetInfoElfA64 st [] := by
  constructor
  · set st₁ : WritingAssembler := ⟨⟨{ init targetInfoA64 with
      strtab := (strtabAdd (init targetInfoA64).strtab (ascii "g")).1
      globalSymbols := (init targetInfoA64).globalSymbols ++
        [⟨(strtabAdd (init targetInfoA64).strtab (ascii "g")).2,
          symInfo SymBinding.globalSym.stb sttNotype, 0, shnUndef, 0, 0⟩] },
      ⟨[], [], [], []⟩⟩, (new targetInfoA64).writer⟩ with hst₁
    have hwriter : WriterInv st₁ := ⟨(WriterInv.new targetInfoA64).fits, (WriterInv.new targetInfoA64).cur⟩
    have hsections : st₁.asm.elf.sections.length = 9 := init_sections_length targetInfoA64
    have hframe : st₁.asm.elf.refs.ehFrame = 7 := by
      obtain ⟨a, b, c, h⟩ := init_eq targetInfoA64
      exact congrArg (fun st : ElfState => st.refs.ehFrame) h
    have hasm :
      (new targetInfoA64).asm.step targetInfoA64 (.elf (.symAdd (ascii "g") .globalSym sttNotype)) =
      some st₁.asm := rfl
    have hadd :
      (new targetInfoA64).step targetInfoA64 (.call (.elf (.symAdd (ascii "g") .globalSym sttNotype))) =
      some st₁ := by
      rw [WritingAssembler.step_call rfl, hasm]
      exact (if_pos hwriter.cur : checked st₁.asm (new targetInfoA64).writer = some st₁)
    have hlt : st₁.asm.elf.refs.ehFrame < st₁.asm.elf.sections.length := by omega
    obtain ⟨sections, hlen, hgroups⟩ := @run_groups targetInfoA64 (2 ^ 31) true 0xff00 st₁ hwriter hlt
    set st₂ := st₁.addSections sections with hst₂
    have hwriter₂ : WriterInv st₂ := addSections_inv hwriter hlt sections
    have hlt₂ : st₂.asm.elf.refs.ehFrame < st₂.asm.elf.sections.length := by
      show st₁.asm.elf.refs.ehFrame < (st₁.asm.elf.sections ++ sections).length
      rw [List.length_append]
      omega
    have hsize : st₂.asm.elf.getBssSection.ehSize ≤ st₂.writer.stop :=
      (@getBssSection_ehSize st₂.asm.elf (init_bss targetInfoA64) hlt₂).trans_le hwriter₂.cur
    have hrun : run targetInfoA64 (new targetInfoA64) manySections =
        some { st₂ with asm := { st₂.asm with elf := st₂.asm.elf.getBssSection } } := by
      rw [manySections, run, hadd, Option.bind_some, run_append, hgroups, Option.bind_some]
      exact congrArg (Option.bind · some) (if_pos hsize)
    have hinv : Inv st₂.asm.elf.getBssSection := AssemblerElf.run_inv (run_erase hrun)
    have hwriter₃ : WriterInv { st₂ with asm := { st₂.asm with elf := st₂.asm.elf.getBssSection } } :=
      ⟨hwriter₂.fits, hsize⟩
    refine ⟨_, hrun, fun hsame => ?_⟩
    refine @getBssSection_localShndx st₂.asm.elf (init_bss targetInfoA64) ?_ ?_
      (empty_of_sameAfter hwriter₃ hinv hsame).1.1
    · show shnLoreserve ≤ (st₁.asm.elf.sections ++ sections).length
      rw [List.length_append, hsections, hlen]
      decide
    · rw [show st₂.asm.elf.localSymbols.length = 3 from init_localSymbols_length targetInfoA64]
      decide
  · obtain ⟨st, hst, hnone⟩ : ∃ st, run targetInfoA64 (new targetInfoA64) manyFrames = some st ∧
        st.reset targetInfoA64 = none := by
      have hmap :
        (run targetInfoA64 (new targetInfoA64) manyFrames).map (WritingAssembler.reset targetInfoA64) =
        some none := by
        decide +kernel
      exact Option.map_eq_some_iff.mp hmap
    have hreset : st.reset targetInfoElfA64.toTargetInfo = none := hnone
    refine ⟨st, hst, fun hsame => ?_⟩
    rw [SameAfter, hreset] at hsame
    cases hsame

end Tpde.Assembler
