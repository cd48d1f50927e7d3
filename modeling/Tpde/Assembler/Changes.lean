import Tpde.Assembler.AssemblerElf
import Mathlib.Logic.Relation

/-!
# What calls change

Every function of the assembler is made of a few changes of its sections, its symbols and
the tables with the sections of symbols (`step_changes`). What these changes keep is kept
by every sequence of calls.
-/

namespace Tpde.Assembler

open Bytes Elf ElfState Relation

/-- The kind of a section: whether it has room for relocations, whether it is virtual, and its type. -/
def DataSection.kind (sec : DataSection) : Bool × Bool × ℕ := (sec.hasRelocs, sec.isVirtual, sec.type)

namespace ElfState

/-- The states agree on sections, symbols and the tables with the sections of symbols. -/
structure SameTables (st st' : ElfState) : Prop where
  sections : st'.sections = st.sections
  localSymbols : st'.localSymbols = st.localSymbols
  globalSymbols : st'.globalSymbols = st.globalSymbols
  localShndx : st'.localShndx = st.localShndx
  globalShndx : st'.globalShndx = st.globalShndx

/-- The section of a symbol is set to one that fits, or copied from a symbol that does not have its
section in a table. -/
def PlainShndx (st : ElfState) (shndx : ℕ) : Prop :=
  shndx < shnLoreserve ∨ ∃ sym s, st.getSym sym = some s ∧ s.shndx ≠ shnXindex ∧ s.shndx = shndx

/-- One change. A changed section keeps its kind, and a changed symbol its binding. A section in a
table does not fit into the symbol. -/
inductive Change : ElfState → ElfState → Prop
  | same {st st' : ElfState} (h : SameTables st st') : Change st st'
  | section {st : ElfState} (ref : ℕ) (f : DataSection → DataSection) (hf : ∀ sec, (f sec).kind = sec.kind) :
    Change st (st.modifySection ref f)
  | newSection {st : ElfState} (type flags name : ℕ) : Change st (st.newSection type flags name).1
  | made {st : ElfState} (type flags name align : ℕ) (symName : List UInt8) (withRela : Bool) :
    Change st (st.newSectionWith type flags name align symName withRela).1
  | setSym {st : ElfState} {sym : ℕ} {s : Sym} (s' : Sym) (hs : st.getSym sym = some s)
    (hinfo : s'.info = s.info)
    (hshndx : s'.shndx = s.shndx ∨ PlainShndx st s'.shndx) : Change st (st.setSym sym s')
  | setXindex {st : ElfState} {sym ref : ℕ} {s : Sym} (s' : Sym) (hs : st.getSym sym = some s)
    (hinfo : s'.info = s.info)
    (hshndx : s'.shndx = shnXindex)
    (href : (shnLoreserve ≤ ref ∧ ∃ sec, st.getSection ref = some sec) ∨
      ref ∈ st.localShndx ++ st.globalShndx) :
    Change st ((st.setSym sym s').symDefXindex sym ref)
  | addLocal {st : ElfState} (sym : Sym) (hbind : sym.bind = stbLocal) (hshndx : sym.shndx = shnUndef)
    (hlen : st.localSymbols.length + 1 < 2 ^ 31) :
      Change st { st with localSymbols := st.localSymbols ++ [sym] }
  | addGlobal {st : ElfState} (sym : Sym) (hbind : sym.bind ≠ stbLocal) (hshndx : sym.shndx = shnUndef)
    (hlen : st.globalSymbols.length + 1 < 2 ^ 31) :
      Change st { st with globalSymbols := st.globalSymbols ++ [sym] }

/-- Any number of changes. -/
abbrev Changes : ElfState → ElfState → Prop := ReflTransGen Change

variable {st st' : ElfState} {target : TargetInfo}

theorem Changes.same (h : Changes st st') {st'' : ElfState} (hs : SameTables st' st'') :
    Changes st st'' := h.tail (.same hs)

theorem getOrCreateSection_changes (st : ElfState) (ref relaName type flags align : ℕ) (withRela : Bool) :
    Changes st (st.getOrCreateSection ref relaName type flags align withRela).1 := by
  rw [getOrCreateSection]
  split
  · exact .refl
  · exact .single (.made ..)

theorem getOrCreateSection_refs (st : ElfState) (ref relaName type flags align : ℕ) (withRela : Bool)
    (refs : SecRefs) :
    Changes st { (st.getOrCreateSection ref relaName type flags align withRela).1 with refs := refs } :=
  (getOrCreateSection_changes ..).same ⟨rfl, rfl, rfl, rfl, rfl⟩

theorem getDataSection_changes (st : ElfState) (rodata relro : Bool) :
    Changes st (st.getDataSection rodata relro) := by
  unfold getDataSection
  generalize secOff ".rela.data" = data
  generalize secOff ".rela.data.rel.ro" = relroName
  generalize secOff ".rela.rodata" = rodataName
  cases rodata with
  | false => exact getOrCreateSection_refs st _ data _ _ _ _ _
  | true =>
    cases relro with
    | false => exact getOrCreateSection_refs st _ rodataName _ _ _ _ _
    | true => exact getOrCreateSection_refs st _ relroName _ _ _ _ _

theorem getBssSection_changes (st : ElfState) : Changes st st.getBssSection := getOrCreateSection_refs ..

theorem getTdataSection_changes (st : ElfState) : Changes st st.getTdataSection := getOrCreateSection_refs ..

theorem getTbssSection_changes (st : ElfState) : Changes st st.getTbssSection := getOrCreateSection_refs ..

theorem writeU32_change (st : ElfState) (ref v : ℕ) : Change st (st.writeU32 ref v) :=
  .section _ _ fun _ => rfl

theorem createSection_changes {name : List UInt8} {type flags group : ℕ} {withRela : Bool} {x : ElfState × ℕ}
    (h : st.createSection name type flags withRela group = some x) : Changes st x.1 := by
  rw [createSection] at h
  generalize shstrtab.length = base, ascii ".rela" = rela at h
  split at h
  · cases h
  · split at h
    · cases h
    · simp only [Option.some.injEq] at h
      rw [← h]
      have hmade (extra : List UInt8) (t f n : ℕ) : Changes st
          (newSectionWith { st with shstrtabExtra := extra } t f n 1 name withRela).1 := by
        have hsame : Change st { st with shstrtabExtra := extra } := .same ⟨rfl, rfl, rfl, rfl, rfl⟩
        exact (ReflTransGen.single hsame).tail (.made t f n 1 name withRela)
      split
      · exact hmade ..
      · split
        · exact ((hmade ..).tail (writeU32_change ..)).tail (writeU32_change ..)
        · exact (hmade ..).tail (writeU32_change ..)

theorem createStructorSection_changes {init : Bool} {group : ℕ} {x : ElfState × ℕ}
    (h : st.createStructorSection init group = some x) : Changes st x.1 := by
  obtain ⟨y, hy, rfl⟩ := Option.map_eq_some_iff.mp h
  exact (createSection_changes hy).tail (.section _ _ fun _ => rfl)

theorem createGroupSection_changes (st : ElfState) (signatureSym : ℕ) (isComdat : Bool) :
    Changes st (st.createGroupSection signatureSym isComdat).1 :=
  ((ReflTransGen.single (.newSection ..)).tail (.section _ _ fun _ => rfl)).tail (writeU32_change ..)

theorem stb_div (binding : SymBinding) (type : ℕ) : symInfo binding.stb type / 16 = binding.stb := by
  rw [symInfo]
  omega

theorem symAdd_changes {name : List UInt8} {binding : SymBinding} {type : ℕ} {x : ElfState × ℕ}
    (h : st.symAdd name binding type = some x) : Changes st x.1 := by
  rw [symAdd] at h
  simp only at h
  split at h
  · rename_i hlocal
    split at h
    · rename_i hlen
      obtain rfl := Option.some.inj h
      refine Changes.same (.single (.addLocal _ ?_ rfl hlen)) ⟨rfl, rfl, rfl, rfl, rfl⟩
      rw [hlocal, Sym.bind, stb_div]
      rfl
    · cases h
  · rename_i hlocal
    split at h
    · rename_i hlen
      obtain rfl := Option.some.inj h
      refine Changes.same (.single (.addGlobal _ ?_ rfl hlen)) ⟨rfl, rfl, rfl, rfl, rfl⟩
      rw [Sym.bind, stb_div]
      cases binding with
      | localSym => exact absurd rfl hlocal
      | weakSym => decide
      | globalSym => decide
    · cases h

theorem symDef_changes {sym ref pos size : ℕ} (h : st.symDef sym ref pos size = some st') :
    Changes st st' := by
  obtain ⟨s, hs, h⟩ := Option.bind_eq_some_iff.mp h
  obtain ⟨sec, hsec, h⟩ := Option.bind_eq_some_iff.mp h
  split at h
  · cases h
  · split at h
    · rename_i href
      obtain rfl := Option.some.inj h
      refine .single (.setSym _ hs rfl (.inr (.inl ?_)))
      simpa [secIsXindex] using href
    · rename_i href
      obtain rfl := Option.some.inj h
      refine .single (.setXindex { s with
        value := pos, size := size, shndx := shnXindex } hs rfl rfl (.inl ⟨?_, sec, hsec⟩))
      simpa [secIsXindex] using href

theorem symCopy_changes {dst src : ℕ} (h : st.symCopy dst src = some st') : Changes st st' := by
  obtain ⟨d, hd, h⟩ := Option.bind_eq_some_iff.mp h
  obtain ⟨s, hs, h⟩ := Option.bind_eq_some_iff.mp h
  simp only at h
  split at h
  · rename_i hx
    obtain ⟨ref, href, rfl⟩ := Option.map_eq_some_iff.mp h
    refine .single (.setXindex { d with
      shndx := s.shndx, size := s.size, value := s.value } hd rfl hx (.inr ?_))
    rw [symSection, hs] at href
    simp only [hx, Option.bind_eq_bind, Option.bind_some, if_true] at href
    rw [if_neg (by decide)] at href
    have hmem := List.mem_of_getElem? href
    rw [List.mem_append]
    split at hmem
    · exact .inl hmem
    · exact .inr hmem
  · rename_i hx
    obtain rfl := Option.some.inj h
    exact .single (.setSym _ hd rfl (.inr (.inr ⟨src, s, hs, hx, rfl⟩)))

theorem symSetVisibility_changes {sym visibility : ℕ}
    (h : st.symSetVisibility sym visibility = some st') : Changes st st' := by
  obtain ⟨s, hs, rfl⟩ := Option.map_eq_some_iff.mp h
  exact .single (.setSym _ hs rfl (.inl rfl))

theorem symDefPredefData_changes {ref sym align : ℕ} {data : List UInt8}
    (h : st.symDefPredefData ref sym data align = some st') : Changes st st' := by
  obtain ⟨sec, -, h⟩ := Option.bind_eq_some_iff.mp h
  obtain ⟨st₁, hdef, h⟩ := Option.bind_eq_some_iff.mp h
  split at h
  · cases h
  · obtain rfl := Option.some.inj h
    exact ((ReflTransGen.single (.section _ _ fun _ => rfl)).trans (symDef_changes hdef)).tail
      (.section _ _ fun _ => rfl)

theorem symDefPredefZero_changes {ref sym size align : ℕ}
    (h : st.symDefPredefZero ref sym size align = some st') :
    Changes st st' := by
  obtain ⟨sec, -, h⟩ := Option.bind_eq_some_iff.mp h
  obtain ⟨st₁, hdef, h⟩ := Option.bind_eq_some_iff.mp h
  obtain rfl := Option.some.inj h
  refine ((ReflTransGen.single (.section _ _ fun _ => rfl)).trans (symDef_changes hdef)).tail
    (.section _ _ fun _ => ?_)
  split <;> rfl

theorem relocSec_changes {ref sym type offset : ℕ} {addend : ℤ}
    (h : st.relocSec ref sym type offset addend = some st') :
    Changes st st' := by
  obtain ⟨sec, -, h⟩ := Option.bind_eq_some_iff.mp h
  obtain ⟨s, -, h⟩ := Option.bind_eq_some_iff.mp h
  split at h
  · cases h
  · obtain rfl := Option.some.inj h
    exact .single (.section _ _ fun _ => rfl)

theorem setData_changes {ref : ℕ} {data : List UInt8} (h : st.setData ref data = some st') :
    Changes st st' := by
  obtain ⟨sec, -, h⟩ := Option.bind_eq_some_iff.mp h
  split at h
  · cases h
  · obtain rfl := Option.some.inj h
    exact .single (.section _ _ fun _ => rfl)

theorem modifyEh_changes (st : ElfState) (f : EhState → EhState) : Changes st (st.modifyEh f) := by
  rw [modifyEh]
  split
  · exact .refl
  · rename_i sec _
    exact Changes.same (.single (.section st.refs.ehFrame
      (fun sec' => { sec' with
        data := (f (st.ehState sec)).data, relocs := (f (st.ehState sec)).relocs }) fun _ => rfl))
      ⟨rfl, rfl, rfl, rfl, rfl⟩

theorem ehEndFde_changes {fdeStart func : ℕ} (h : st.ehEndFde target fdeStart func = some st') :
    Changes st st' := by
  obtain ⟨s, -, h⟩ := Option.bind_eq_some_iff.mp h
  obtain ⟨sec, -, h⟩ := Option.bind_eq_some_iff.mp h
  obtain rfl := Option.some.inj h
  refine ReflTransGen.trans ?_ (modifyEh_changes _ _)
  split
  · exact .refl
  · exact (getOrCreateSection_changes ..).same ⟨rfl, rfl, rfl, rfl, rfl⟩

theorem exceptEncodeFunc_changes {except : ExceptState} {func : ℕ} {labelOffsets : ℕ → ℕ}
    (h : st.exceptEncodeFunc target except func labelOffsets = some st') : Changes st st' := by
  rw [exceptEncodeFunc] at h
  split at h
  · split at h
    · obtain rfl := Option.some.inj h
      exact .refl
    · cases h
  · obtain ⟨s, -, h⟩ := Option.bind_eq_some_iff.mp h
    obtain ⟨sec, -, h⟩ := Option.bind_eq_some_iff.mp h
    split at h
    · cases h
    · obtain rfl := Option.some.inj h
      exact .single (.section _ _ fun _ => rfl)

/-- A call is made of changes. -/
theorem step_changes {op : ElfOp} (h : st.step target op = some st') : Changes st st' := by
  cases op with
  | getDataSection rodata relro => cases h; exact getDataSection_changes ..
  | getBssSection => cases h; exact getBssSection_changes _
  | getTdataSection => cases h; exact getTdataSection_changes _
  | getTbssSection => cases h; exact getTbssSection_changes _
  | createSection name type flags withRela group =>
    obtain ⟨x, hx, rfl⟩ := Option.map_eq_some_iff.mp h
    exact createSection_changes hx
  | createStructorSection init group =>
    obtain ⟨x, hx, rfl⟩ := Option.map_eq_some_iff.mp h
    exact createStructorSection_changes hx
  | createGroupSection signatureSym isComdat => cases h; exact createGroupSection_changes ..
  | symAdd name binding type =>
    obtain ⟨x, hx, rfl⟩ := Option.map_eq_some_iff.mp h
    exact symAdd_changes hx
  | symDef sym ref pos size => exact symDef_changes h
  | symCopy dst src => exact symCopy_changes h
  | symSetVisibility sym visibility => exact symSetVisibility_changes h
  | symDefPredefData ref sym data align => exact symDefPredefData_changes h
  | symDefPredefZero ref sym size align => exact symDefPredefZero_changes h
  | relocSec ref sym type offset addend => exact relocSec_changes h
  | setData ref data => exact setData_changes h
  | ehBeginFde personality => cases h; exact modifyEh_changes _ _
  | ehWrite bs => cases h; exact modifyEh_changes _ _
  | ehEndFde fdeStart func => exact ehEndFde_changes h

end ElfState

namespace AssemblerElf

variable {target : TargetInfo}

/-- A call of any function is made of changes. -/
theorem step_changes {st st' : AssemblerElf} {op : AsmOp} (h : st.step target op = some st') :
    Changes st.elf st'.elf := by
  cases op with
  | elf op =>
    obtain ⟨elf, helf, rfl⟩ := Option.map_eq_some_iff.mp h
    exact ElfState.step_changes helf
  | exceptBeginFunc => cases h; exact .refl
  | except op =>
    cases op with
    | typeIdxForSym sym =>
      obtain ⟨_, _, rfl⟩ := Option.map_eq_some_iff.mp h
      exact .refl
    | addCallSite => cases h; exact .refl
    | addAction => cases h; exact .refl
    | addEmptySpecAction => cases h; exact .refl
    | addCleanupAction => cases h; exact .refl
  | exceptEncodeFunc func labelOffsets =>
    obtain ⟨elf, helf, rfl⟩ := Option.map_eq_some_iff.mp h
    exact exceptEncodeFunc_changes helf

/-- A sequence of calls is made of changes. -/
theorem run_changes {ops : List AsmOp} {st st' : AssemblerElf} (h : run target st ops = some st') :
    Changes st.elf st'.elf := by
  induction ops generalizing st with
  | nil => cases h; exact .refl
  | cons op ops ih =>
    obtain ⟨st₁, hstep, hrun⟩ := Option.bind_eq_some_iff.mp h
    exact (step_changes hstep).trans (ih hrun)

end AssemblerElf

end Tpde.Assembler
