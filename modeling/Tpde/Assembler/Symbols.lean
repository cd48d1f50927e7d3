import Tpde.Assembler.Changes

/-!
# What calls do to one symbol

A call writes to at most one symbol that there is (`AsmOp.target`): a symbol that no call of a
sequence writes to is the same after all of them (`run_getSym`). `sym_copy` moves a symbol to
where another one is, with the section that is in a table (`symCopy_place`), and leaves the
others where they are.
-/

namespace Tpde.Assembler

open Bytes Elf ElfState

/-- The symbol that a call writes to. -/
def ElfOp.target : ElfOp → Option ℕ
  | .symDef sym _ _ _ => some sym
  | .symCopy dst _ => some dst
  | .symSetVisibility sym _ => some sym
  | .symDefPredefData _ sym _ _ => some sym
  | .symDefPredefZero _ sym _ _ => some sym
  | _ => none

/-- The symbol that a call writes to. -/
def AsmOp.target : AsmOp → Option ℕ
  | .elf op => op.target
  | _ => none

/-- A call writes to no symbol of a list. References are 32 bit. -/
def AsmOp.Spares (syms : List ℕ) (op : AsmOp) : Prop := ∀ t, op.target = some t → t < 2 ^ 32 ∧ t ∉ syms

namespace ElfState

variable {st st' st'' : ElfState} {target : TargetInfo}

/-! ### New symbols -/

/-- No symbol is changed, but there may be new ones. -/
structure Extends (st st' : ElfState) : Prop where
  locals : st.localSymbols <+: st'.localSymbols
  globals : st.globalSymbols <+: st'.globalSymbols

namespace Extends

theorem of_eq (hl : st'.localSymbols = st.localSymbols) (hg : st'.globalSymbols = st.globalSymbols) :
    Extends st st' :=
  ⟨hl ▸ List.prefix_refl _, hg ▸ List.prefix_refl _⟩

theorem refl (st : ElfState) : Extends st st := of_eq rfl rfl

theorem trans (h : Extends st st') (h' : Extends st' st'') : Extends st st'' :=
  ⟨h.locals.trans h'.locals, h.globals.trans h'.globals⟩

theorem getSym (h : Extends st st') {x : ℕ} {s : Sym} (hs : st.getSym x = some s) :
    st'.getSym x = some s := by
  rw [ElfState.getSym] at hs ⊢
  split at hs
  · cases hs
  · rename_i h0
    rw [if_neg h0]
    split at hs
    all_goals
      rename_i hlocal
      obtain ⟨hlt, rfl⟩ := List.getElem?_eq_some_iff.mp hs
    · rw [if_pos hlocal]
      exact List.prefix_iff_getElem?.mp h.locals _ hlt
    · rw [if_neg hlocal]
      exact List.prefix_iff_getElem?.mp h.globals _ hlt

end Extends

theorem modifySection_extends (st : ElfState) (ref : ℕ) (f : DataSection → DataSection) :
    Extends st (st.modifySection ref f) := by
  rw [modifySection]
  split <;> exact .of_eq rfl rfl

theorem symDefXindex_extends (st : ElfState) (sym ref : ℕ) : Extends st (st.symDefXindex sym ref) := by
  rw [symDefXindex]
  split <;> exact .of_eq rfl rfl

theorem createSectionSymbol_extends (st : ElfState) (ref : ℕ) (name : List UInt8) :
    Extends st (st.createSectionSymbol ref name).1 := by
  rw [createSectionSymbol]
  dsimp only
  split
  · refine Extends.trans ?_ (symDefXindex_extends ..)
    exact ⟨List.prefix_append .., List.prefix_refl _⟩
  · exact ⟨List.prefix_append .., List.prefix_refl _⟩

theorem newSectionWith_extends (st : ElfState) (type flags name align : ℕ) (symName : List UInt8)
    (withRela : Bool) :
    Extends st (st.newSectionWith type flags name align symName withRela).1 := by
  rw [newSectionWith]
  dsimp only
  refine Extends.trans ?_ (modifySection_extends ..)
  cases withRela with
  | false =>
    have hnew : Extends st (st.newSection type flags name).1 := .of_eq rfl rfl
    exact hnew.trans (createSectionSymbol_extends ..)
  | true =>
    have hnew : Extends st (st.newSection type flags name).1.reserveRela := .of_eq rfl rfl
    exact hnew.trans (createSectionSymbol_extends ..)

theorem getOrCreateSection_extends (st : ElfState) (ref relaName type flags align : ℕ) (withRela : Bool)
    (refs : SecRefs) :
    Extends st { (st.getOrCreateSection ref relaName type flags align withRela).1 with refs := refs } := by
  rw [getOrCreateSection]
  split
  · exact .of_eq rfl rfl
  · exact (newSectionWith_extends ..).trans (.of_eq rfl rfl)

theorem getDataSection_extends (st : ElfState) (rodata relro : Bool) :
    Extends st (st.getDataSection rodata relro) := by
  unfold getDataSection
  generalize secOff ".rela.data" = data
  generalize secOff ".rela.data.rel.ro" = relroName
  generalize secOff ".rela.rodata" = rodataName
  cases rodata with
  | false => exact getOrCreateSection_extends st _ data _ _ _ _ _
  | true =>
    cases relro with
    | false => exact getOrCreateSection_extends st _ rodataName _ _ _ _ _
    | true => exact getOrCreateSection_extends st _ relroName _ _ _ _ _

theorem createSection_extends {name : List UInt8} {type flags group : ℕ} {withRela : Bool} {x : ElfState × ℕ}
    (h : st.createSection name type flags withRela group = some x) : Extends st x.1 := by
  rw [createSection] at h
  generalize shstrtab.length = base, ascii ".rela" = rela at h
  split at h
  · cases h
  · split at h
    · cases h
    · simp only [Option.some.injEq] at h
      rw [← h]
      have hmade (extra : List UInt8) (t f n : ℕ) : Extends st
          (newSectionWith { st with shstrtabExtra := extra } t f n 1 name withRela).1 := by
        have hsame : Extends st { st with shstrtabExtra := extra } := .of_eq rfl rfl
        exact hsame.trans (newSectionWith_extends ..)
      split
      · exact hmade ..
      · split
        · exact ((hmade ..).trans (modifySection_extends ..)).trans (modifySection_extends ..)
        · exact (hmade ..).trans (modifySection_extends ..)

theorem createStructorSection_extends {init : Bool} {group : ℕ} {x : ElfState × ℕ}
    (h : st.createStructorSection init group = some x) : Extends st x.1 := by
  obtain ⟨y, hy, rfl⟩ := Option.map_eq_some_iff.mp h
  exact (createSection_extends hy).trans (modifySection_extends ..)

theorem createGroupSection_extends (st : ElfState) (signatureSym : ℕ) (isComdat : Bool) :
    Extends st (st.createGroupSection signatureSym isComdat).1 := by
  have hnew : Extends st (st.newSection shtGroup 0 (secOff ".group")).1 := .of_eq rfl rfl
  exact (hnew.trans (modifySection_extends ..)).trans (modifySection_extends ..)

theorem symAdd_extends {name : List UInt8} {binding : SymBinding} {type : ℕ} {x : ElfState × ℕ}
    (h : st.symAdd name binding type = some x) : Extends st x.1 := by
  rw [symAdd] at h
  dsimp only at h
  split at h
  all_goals
    split at h
    · obtain rfl := Option.some.inj h
      exact ⟨by simp, by simp⟩
    · cases h

/-- A new symbol was not there and is not defined. -/
theorem symAdd_getSym {name : List UInt8} {binding : SymBinding} {type x : ℕ}
    (h : st.symAdd name binding type = some (st', x))
    (hne : st.localSymbols ≠ []) :
    x < 2 ^ 32 ∧ st.getSym x = none ∧ st'.strtab = (strtabAdd st.strtab name).1 ∧
      st'.getSym x =
        some ⟨(strtabAdd st.strtab name).2, symInfo binding.stb type, 0, shnUndef, 0, 0⟩ := by
  have hpos : 0 < st.localSymbols.length := List.length_pos_iff.mpr hne
  rw [symAdd] at h
  dsimp only at h
  split at h
  · split at h
    · rename_i hlen
      obtain ⟨rfl, rfl⟩ := Prod.mk.inj (Option.some.inj h)
      have hlocal : symIsLocal st.localSymbols.length = true := by
        rw [symIsLocal, decide_eq_true_eq]
        omega
      have hidx : symIdx st.localSymbols.length = st.localSymbols.length := Nat.mod_eq_of_lt (by omega)
      refine ⟨by omega, ?_, rfl, ?_⟩
      · simp [getSym, hlocal, hidx]
      · simp [getSym, hlocal, hidx, hpos.ne']
    · cases h
  · split at h
    · rename_i hlen
      obtain ⟨rfl, rfl⟩ := Prod.mk.inj (Option.some.inj h)
      have hglobal : symIsLocal (2 ^ 31 + st.globalSymbols.length) = false := by
        rw [symIsLocal, decide_eq_false_iff_not]
        omega
      have hidx : symIdx (2 ^ 31 + st.globalSymbols.length) = st.globalSymbols.length := by
        rw [symIdx]
        omega
      have hzero : 2 ^ 31 + st.globalSymbols.length ≠ 0 := by omega
      refine ⟨by omega, ?_, rfl, ?_⟩
      · rw [getSym, if_neg hzero, hglobal, hidx]
        simp
      · rw [getSym, if_neg hzero, hglobal, hidx]
        simp
    · cases h

theorem modifyEh_extends (st : ElfState) (f : EhState → EhState) : Extends st (st.modifyEh f) := by
  rw [modifyEh]
  split
  · exact .refl _
  · exact (modifySection_extends ..).trans (.of_eq rfl rfl)

theorem ehEndFde_extends {fdeStart func : ℕ} (h : st.ehEndFde target fdeStart func = some st') :
    Extends st st' := by
  obtain ⟨s, hs, h⟩ := Option.bind_eq_some_iff.mp h
  obtain ⟨sec, hsec, h⟩ := Option.bind_eq_some_iff.mp h
  obtain rfl := Option.some.inj h
  dsimp only
  refine Extends.trans ?_ (modifyEh_extends ..)
  split
  · exact .refl _
  · exact getOrCreateSection_extends ..

theorem exceptEncodeFunc_extends {except : ExceptState} {func : ℕ} {labelOffsets : ℕ → ℕ}
    (h : st.exceptEncodeFunc target except func labelOffsets = some st') : Extends st st' := by
  rw [exceptEncodeFunc] at h
  split at h
  · split at h
    · obtain rfl := Option.some.inj h
      exact .refl _
    · cases h
  · obtain ⟨s, hs, h⟩ := Option.bind_eq_some_iff.mp h
    obtain ⟨sec, hsec, h⟩ := Option.bind_eq_some_iff.mp h
    split at h
    · cases h
    · obtain rfl := Option.some.inj h
      exact modifySection_extends ..

/-! ### Symbols that are set -/

/-- References of 32 bit with one place in one table are equal. -/
theorem eq_of_symIdx {x y : ℕ} (hx : x < 2 ^ 32) (hy : y < 2 ^ 32) (hlocal : symIsLocal x = symIsLocal y)
    (hidx : symIdx x = symIdx y) : x = y := by
  simp only [symIsLocal, decide_eq_decide] at hlocal
  simp only [symIdx] at hidx
  omega

theorem getSym_setSym_self {x : ℕ} {s : Sym} (s' : Sym) (hs : st.getSym x = some s) :
    (st.setSym x s').getSym x = some s' := by
  rw [getSym] at hs ⊢
  split at hs
  · cases hs
  · rename_i h0
    rw [if_neg h0, setSym]
    split at hs
    all_goals
      rename_i hlocal
      obtain ⟨hlt, -⟩ := List.getElem?_eq_some_iff.mp hs
      simp [hlocal, hlt]

theorem getSym_setSym_of_ne {x y : ℕ} (hx : x < 2 ^ 32) (hy : y < 2 ^ 32) (hne : y ≠ x) (s' : Sym) :
    (st.setSym x s').getSym y = st.getSym y := by
  rw [getSym, getSym, setSym]
  have hidx : symIsLocal x = symIsLocal y → symIdx x ≠ symIdx y :=
    fun hlocal hidx => hne (eq_of_symIdx hx hy hlocal hidx).symm
  cases hlx : symIsLocal x <;> cases hly : symIsLocal y <;> simp_all [List.getElem?_set_ne]

@[simp]
theorem getSym_symDefXindex (st : ElfState) (sym ref x : ℕ) :
    (st.symDefXindex sym ref).getSym x = st.getSym x := by
  rw [symDefXindex]
  split <;> rfl

/-- A symbol that is set leaves the others. -/
theorem symDef_getSym {sym ref pos size x : ℕ} (h : st.symDef sym ref pos size = some st')
    (hsym : sym < 2 ^ 32) (hx : x < 2 ^ 32)
    (hne : x ≠ sym) : st'.getSym x = st.getSym x := by
  obtain ⟨s, hs, h⟩ := Option.bind_eq_some_iff.mp h
  obtain ⟨sec, hsec, h⟩ := Option.bind_eq_some_iff.mp h
  split at h
  · cases h
  · split at h
    · obtain rfl := Option.some.inj h
      exact getSym_setSym_of_ne hsym hx hne _
    · obtain rfl := Option.some.inj h
      rw [getSym_symDefXindex]
      exact getSym_setSym_of_ne hsym hx hne _

/-! ### Copies -/

/-- Where a symbol is: its section, its value and its size. -/
def place (st : ElfState) (x : ℕ) : Option (ℕ × ℕ × ℕ) := do
  let s ← st.getSym x
  let ref ← st.symSection x
  return (ref, s.value, s.size)

theorem place_eq_some_iff {x : ℕ} {p : ℕ × ℕ × ℕ} :
    st.place x = some p ↔ ∃ s, st.getSym x = some s ∧ st.symSection x = some p.1 ∧ s.value = p.2.1 ∧
      s.size = p.2.2 := by
  obtain ⟨ref, value, size⟩ := p
  simp only [place, Option.bind_eq_bind, Option.bind_eq_some_iff, Option.pure_def, Option.some.injEq,
    Prod.mk.injEq]
  constructor
  · rintro ⟨s, hs, ref', href, rfl, rfl, rfl⟩
    exact ⟨s, hs, href, rfl, rfl⟩
  · rintro ⟨s, hs, href, rfl, rfl⟩
    exact ⟨s, hs, ref, href, rfl, rfl, rfl⟩

/-- The table with the sections of the symbols like this one. -/
def shndxTable (st : ElfState) (x : ℕ) : List ℕ := if symIsLocal x then st.localShndx else st.globalShndx

theorem symSection_eq {x : ℕ} {s : Sym} (hs : st.getSym x = some s) :
    st.symSection x = if s.shndx < shnLoreserve ∧ s.shndx ≠ shnUndef then some s.shndx
      else if s.shndx = shnXindex then (st.shndxTable x)[symIdx x]? else none := by
  rw [symSection, hs]
  rfl

/-- A symbol that is not defined is nowhere. -/
theorem place_undef {x : ℕ} {s : Sym} (hs : st.getSym x = some s) (hundef : s.shndx = shnUndef) :
    st.place x = none := by
  have hsec : st.symSection x = none := by
    rw [symSection_eq hs, hundef]
    rfl
  simp [place, hs, hsec]

@[simp]
theorem shndxTable_setSym (st : ElfState) (sym x : ℕ) (s : Sym) :
    (st.setSym sym s).shndxTable x = st.shndxTable x := by
  rw [setSym]
  split <;> rfl

theorem getElem?_setShndx_self (shndx : List ℕ) (i ref : ℕ) : (setShndx shndx i ref)[i]? = some ref := by
  rw [setShndx, List.getElem?_set_self]
  split
  · simp [resize]
    omega
  · omega

theorem getElem?_setShndx_of_ne {shndx : List ℕ} {i j r : ℕ} (ref : ℕ) (hne : i ≠ j)
    (h : shndx[j]? = some r) :
    (setShndx shndx i ref)[j]? = some r := by
  rw [setShndx, List.getElem?_set_ne hne]
  split
  · obtain ⟨hlt, -⟩ := List.getElem?_eq_some_iff.mp h
    rw [resize, List.take_of_length_le (by omega), List.getElem?_append_left hlt]
    exact h
  · exact h

theorem shndxTable_symDefXindex_self (st : ElfState) (x ref : ℕ) :
    ((st.symDefXindex x ref).shndxTable x)[symIdx x]? = some ref := by
  rw [shndxTable, symDefXindex]
  cases hx : symIsLocal x <;> simp [getElem?_setShndx_self]

theorem shndxTable_symDefXindex_of_ne {x y r : ℕ} (hx : x < 2 ^ 32) (hy : y < 2 ^ 32) (hne : y ≠ x) (ref : ℕ)
    (h : (st.shndxTable y)[symIdx y]? = some r) :
      ((st.symDefXindex x ref).shndxTable y)[symIdx y]? = some r := by
  have hidx : symIsLocal x = symIsLocal y → symIdx x ≠ symIdx y :=
    fun hlocal hidx => hne (eq_of_symIdx hx hy hlocal hidx).symm
  rw [shndxTable] at h ⊢
  rw [symDefXindex]
  cases hlx : symIsLocal x <;> cases hly : symIsLocal y <;> rw [hly] at h
  · exact getElem?_setShndx_of_ne ref (hidx (hlx.trans hly.symm)) h
  · exact h
  · exact h
  · exact getElem?_setShndx_of_ne ref (hidx (hlx.trans hly.symm)) h

/-- A section that is found is still found when the symbol and its entry in the table are the same. -/
theorem symSection_mono {x r : ℕ} (hsym : st'.getSym x = st.getSym x)
    (htable : ∀ r, (st.shndxTable x)[symIdx x]? = some r → (st'.shndxTable x)[symIdx x]? = some r)
    (h : st.symSection x = some r) : st'.symSection x = some r := by
  have h' := h
  obtain ⟨s, hs, -⟩ := Option.bind_eq_some_iff.mp h'
  rw [symSection_eq hs] at h
  rw [symSection_eq (hsym.trans hs)]
  split at h
  · rwa [if_pos ‹_›]
  · rw [if_neg ‹_›]
    split at h
    · rw [if_pos ‹_›]
      exact htable r h
    · cases h

/-- What `sym_copy` does to the copy, and that it leaves the other symbols where they are. -/
theorem symCopy_spec {dst src : ℕ} (h : st.symCopy dst src = some st') (hdst : dst < 2 ^ 32) :
    (∃ d s, st.getSym dst = some d ∧ st.getSym src = some s ∧
      st'.getSym dst = some { d with shndx := s.shndx, size := s.size, value := s.value }) ∧
    st'.symSection dst = st.symSection src ∧
    ∀ x < 2 ^ 32, x ≠ dst → st'.getSym x = st.getSym x ∧ ∀ ref, st.symSection x = some ref →
      st'.symSection x = some ref := by
  obtain ⟨d, hd, h⟩ := Option.bind_eq_some_iff.mp h
  obtain ⟨s, hs, h⟩ := Option.bind_eq_some_iff.mp h
  have hself := getSym_setSym_self { d with shndx := s.shndx, size := s.size, value := s.value } hd
  have hother {x : ℕ} (hx : x < 2 ^ 32) (hne : x ≠ dst) :
      (st.setSym dst { d with shndx := s.shndx, size := s.size, value := s.value }).getSym x = st.getSym x :=
    getSym_setSym_of_ne hdst hx hne _
  dsimp only at h
  split at h
  · rename_i hx
    obtain ⟨ref, href, rfl⟩ := Option.map_eq_some_iff.mp h
    have hself' := (getSym_symDefXindex _ dst ref dst).trans hself
    have hother' {x : ℕ} (hx : x < 2 ^ 32) (hne : x ≠ dst) :=
      (getSym_symDefXindex _ dst ref x).trans (hother hx hne)
    refine ⟨⟨d, s, hd, hs, hself'⟩, ?_, fun x hx32 hne => ⟨hother' hx32 hne, fun r hr => ?_⟩⟩
    · rw [href, symSection_eq hself', hx, if_neg (by decide), if_pos rfl, shndxTable_symDefXindex_self]
    · refine symSection_mono (hother' hx32 hne) (fun r hr => ?_) hr
      exact shndxTable_symDefXindex_of_ne hdst hx32 hne ref (by rwa [shndxTable_setSym])
  · rename_i hx
    obtain rfl := Option.some.inj h
    refine ⟨⟨d, s, hd, hs, hself⟩, ?_, fun x hx32 hne => ⟨hother hx32 hne, fun r hr => ?_⟩⟩
    · rw [symSection_eq hself, symSection_eq hs, if_neg hx, if_neg hx]
    · exact symSection_mono (hother hx32 hne) (fun r hr => by rwa [shndxTable_setSym]) hr

/-- A copy is where the other symbol is. -/
theorem symCopy_place {dst src : ℕ} (h : st.symCopy dst src = some st') (hdst : dst < 2 ^ 32) :
    st'.place dst = st.place src := by
  obtain ⟨⟨d, s, -, hs, hcopy⟩, hsec, -⟩ := symCopy_spec h hdst
  simp [place, hcopy, hs, hsec]

/-- A symbol that is not the copy stays where it is. -/
theorem symCopy_place_of_ne {dst src x : ℕ} {p : ℕ × ℕ × ℕ} (h : st.symCopy dst src = some st')
    (hdst : dst < 2 ^ 32) (hx : x < 2 ^ 32)
    (hne : x ≠ dst) (hp : st.place x = some p) : st'.place x = some p := by
  obtain ⟨-, -, hother⟩ := symCopy_spec h hdst
  obtain ⟨hsym, hsec⟩ := hother x hx hne
  obtain ⟨s, hs, href, hrest⟩ := place_eq_some_iff.mp hp
  exact place_eq_some_iff.mpr ⟨s, hsym.trans hs, hsec _ href, hrest⟩

/-! ### Calls -/

/-- A call leaves the symbols that it does not write to. -/
theorem step_getSym {op : ElfOp} {x : ℕ} {s : Sym} (h : st.step target op = some st') (hx : x < 2 ^ 32)
    (hop : ∀ t, op.target = some t → t < 2 ^ 32 ∧ x ≠ t) (hs : st.getSym x = some s) :
      st'.getSym x = some s := by
  cases op with
  | getDataSection rodata relro => exact Option.some.inj h ▸ (getDataSection_extends ..).getSym hs
  | getBssSection => exact Option.some.inj h ▸ (getOrCreateSection_extends ..).getSym hs
  | getTdataSection => exact Option.some.inj h ▸ (getOrCreateSection_extends ..).getSym hs
  | getTbssSection => exact Option.some.inj h ▸ (getOrCreateSection_extends ..).getSym hs
  | createSection name type flags withRela group =>
    obtain ⟨y, hy, rfl⟩ := Option.map_eq_some_iff.mp h
    exact (createSection_extends hy).getSym hs
  | createStructorSection init group =>
    obtain ⟨y, hy, rfl⟩ := Option.map_eq_some_iff.mp h
    exact (createStructorSection_extends hy).getSym hs
  | createGroupSection signatureSym isComdat =>
    exact Option.some.inj h ▸ (createGroupSection_extends ..).getSym hs
  | symAdd name binding type =>
    obtain ⟨y, hy, rfl⟩ := Option.map_eq_some_iff.mp h
    exact (symAdd_extends hy).getSym hs
  | symDef sym ref pos size =>
    obtain ⟨ht, hne⟩ := hop sym rfl
    exact (symDef_getSym h ht hx hne).trans hs
  | symCopy dst src =>
    obtain ⟨ht, hne⟩ := hop dst rfl
    exact ((symCopy_spec h ht).2.2 x hx hne).1.trans hs
  | symSetVisibility sym visibility =>
    obtain ⟨ht, hne⟩ := hop sym rfl
    obtain ⟨d, hd, rfl⟩ := Option.map_eq_some_iff.mp h
    exact (getSym_setSym_of_ne ht hx hne _).trans hs
  | symDefPredefData ref sym data align =>
    obtain ⟨ht, hne⟩ := hop sym rfl
    obtain ⟨sec, hsec, h⟩ := Option.bind_eq_some_iff.mp h
    obtain ⟨st₂, hdef, h⟩ := Option.bind_eq_some_iff.mp h
    split at h
    · cases h
    · obtain rfl := Option.some.inj h
      exact (modifySection_extends ..).getSym
        ((symDef_getSym hdef ht hx hne).trans ((modifySection_extends ..).getSym hs))
  | symDefPredefZero ref sym size align =>
    obtain ⟨ht, hne⟩ := hop sym rfl
    obtain ⟨sec, hsec, h⟩ := Option.bind_eq_some_iff.mp h
    obtain ⟨st₂, hdef, h⟩ := Option.bind_eq_some_iff.mp h
    obtain rfl := Option.some.inj h
    exact (modifySection_extends ..).getSym
      ((symDef_getSym hdef ht hx hne).trans ((modifySection_extends ..).getSym hs))
  | relocSec ref sym type offset addend =>
    obtain ⟨sec, hsec, h⟩ := Option.bind_eq_some_iff.mp h
    obtain ⟨s₂, hs₂, h⟩ := Option.bind_eq_some_iff.mp h
    split at h
    · cases h
    · exact Option.some.inj h ▸ (modifySection_extends ..).getSym hs
  | setData ref data =>
    obtain ⟨sec, hsec, h⟩ := Option.bind_eq_some_iff.mp h
    split at h
    · cases h
    · exact Option.some.inj h ▸ (modifySection_extends ..).getSym hs
  | ehBeginFde personality => exact Option.some.inj h ▸ (modifyEh_extends ..).getSym hs
  | ehWrite bs => exact Option.some.inj h ▸ (modifyEh_extends ..).getSym hs
  | ehEndFde fdeStart func => exact (ehEndFde_extends h).getSym hs

end ElfState

namespace AssemblerElf

variable {target : TargetInfo} {syms : List ℕ} {x : ℕ} {s : Sym}

theorem step_getSym {st st' : AssemblerElf} {op : AsmOp} (h : st.step target op = some st')
    (hop : op.Spares syms) (hmem : x ∈ syms)
    (hx : x < 2 ^ 32) (hs : st.elf.getSym x = some s) : st'.elf.getSym x = some s := by
  cases op with
  | elf op =>
    obtain ⟨elf, helf, rfl⟩ := Option.map_eq_some_iff.mp h
    refine ElfState.step_getSym helf hx (fun t ht => ?_) hs
    obtain ⟨ht32, hnot⟩ := hop t ht
    exact ⟨ht32, fun heq => hnot (heq ▸ hmem)⟩
  | exceptBeginFunc => exact Option.some.inj h ▸ hs
  | except op =>
    have helf : st'.elf = st.elf := by
      cases op with
      | typeIdxForSym sym =>
        obtain ⟨y, hy, rfl⟩ := Option.map_eq_some_iff.mp h
        rfl
      | _ => exact Option.some.inj h ▸ rfl
    exact helf ▸ hs
  | exceptEncodeFunc func labelOffsets =>
    obtain ⟨elf, helf, rfl⟩ := Option.map_eq_some_iff.mp h
    exact (exceptEncodeFunc_extends helf).getSym hs

/-- **Calls leave the symbols that none of them writes to.** -/
theorem run_getSym {st st' : AssemblerElf} {ops : List AsmOp} (h : run target st ops = some st')
    (hops : ∀ op ∈ ops, op.Spares syms)
    (hmem : x ∈ syms) (hx : x < 2 ^ 32) (hs : st.elf.getSym x = some s) : st'.elf.getSym x = some s := by
  induction ops generalizing st with
  | nil => exact Option.some.inj h ▸ hs
  | cons op ops ih =>
    obtain ⟨st₂, hstep, h⟩ := Option.bind_eq_some_iff.mp h
    have hspares := hops op List.mem_cons_self
    exact ih h (fun op hop => hops op (List.mem_cons_of_mem _ hop)) (step_getSym hstep hspares hmem hx hs)

end AssemblerElf

end Tpde.Assembler
