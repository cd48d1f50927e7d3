import Tpde.Assembler.ObjectRead
import Tpde.Assembler.Symbols

/-!
# What is handed over

A name or a relocation that is handed to `sym_add`, `create_section` or `reloc_sec` is in the
state afterwards (`symAdd_handed`, `createSection_handed`, `relocSec_handed`). No later call
takes it out again (`run_keeps`), and so it is in the file that is read back.
-/

namespace Tpde.Assembler

open Bytes Elf ElfState

/-! ### Strings -/

theorem strtabAdd_prefix (strtab str : List UInt8) : strtab <+: (strtabAdd strtab str).1 := by
  rw [strtabAdd]
  split
  · exact List.prefix_refl _
  · exact (List.prefix_append strtab str).trans (List.prefix_append ..)

/-- The table begins with the empty string, which has no place of its own. -/
theorem strtabAdd_stringAt {strtab : List UInt8} (h : StringAt strtab 0 []) (str : List UInt8) :
    StringAt (strtabAdd strtab str).1 (strtabAdd strtab str).2 str := by
  rw [strtabAdd]
  split
  · rename_i hstr
    exact hstr ▸ h
  · have := StringAt.of_append strtab str []
    rwa [List.append_nil, ← List.append_assoc] at this

namespace ElfState

variable {st st' st'' : ElfState} {target : TargetInfo}

/-! ### What is kept -/

/-- What was handed over for a symbol: where its name is, its binding and its type. -/
def handedSym (s : Sym) : ℕ × ℕ := (s.name, s.info)

/-- A section is left, but for its contents, its alignment and its symbol. It may have more relocations. -/
structure KeepsSection (sec sec' : DataSection) : Prop where
  name : sec'.name = sec.name
  flags : sec'.flags = sec.flags
  kind : sec'.kind = sec.kind
  relocs : sec.relocs <+: sec'.relocs

/-- Nothing that was handed over is taken out. -/
structure Keeps (st st' : ElfState) : Prop where
  strtab : st.strtab <+: st'.strtab
  shstrtabExtra : st.shstrtabExtra <+: st'.shstrtabExtra
  locals : st.localSymbols.map handedSym <+: st'.localSymbols.map handedSym
  globals : st.globalSymbols.map handedSym <+: st'.globalSymbols.map handedSym
  sections {ref : ℕ} {sec : DataSection} (h : st.getSection ref = some sec) :
    ∃ sec', st'.getSection ref = some sec' ∧ KeepsSection sec sec'

theorem KeepsSection.refl (sec : DataSection) : KeepsSection sec sec := ⟨rfl, rfl, rfl, List.prefix_refl _⟩

theorem KeepsSection.trans {sec sec' sec'' : DataSection} (h : KeepsSection sec sec')
    (h' : KeepsSection sec' sec'') : KeepsSection sec sec'' :=
  ⟨h'.name.trans h.name, h'.flags.trans h.flags, h'.kind.trans h.kind, h.relocs.trans h'.relocs⟩

namespace Keeps

theorem refl (st : ElfState) : Keeps st st :=
  ⟨List.prefix_refl _, List.prefix_refl _, List.prefix_refl _, List.prefix_refl _,
    fun h => ⟨_, h, .refl _⟩⟩

theorem trans (h : Keeps st st') (h' : Keeps st' st'') : Keeps st st'' where
  strtab := h.strtab.trans h'.strtab
  shstrtabExtra := h.shstrtabExtra.trans h'.shstrtabExtra
  locals := h.locals.trans h'.locals
  globals := h.globals.trans h'.globals
  sections hsec := by
    obtain ⟨sec', hsec', hkeep⟩ := h.sections hsec
    obtain ⟨sec'', hsec'', hkeep'⟩ := h'.sections hsec'
    exact ⟨sec'', hsec'', hkeep.trans hkeep'⟩

/-- The symbol is still there, under its name. -/
theorem getSym (h : Keeps st st') {x : ℕ} {s : Sym} (hs : st.getSym x = some s) :
    ∃ s', st'.getSym x = some s' ∧ s'.name = s.name ∧ s'.info = s.info := by
  have hold {xs ys : List Sym} {i : ℕ} (hxs : xs.map handedSym <+: ys.map handedSym) (hi : xs[i]? = some s) :
      ∃ s', ys[i]? = some s' ∧ s'.name = s.name ∧ s'.info = s.info := by
    have hmap : (xs.map handedSym)[i]? = some (handedSym s) := by rw [List.getElem?_map, hi, Option.map_some]
    obtain ⟨hlt, heq⟩ := List.getElem?_eq_some_iff.mp hmap
    have hys := List.prefix_iff_getElem?.mp hxs i hlt
    rw [heq, List.getElem?_map] at hys
    obtain ⟨s', hs', hhanded⟩ := Option.map_eq_some_iff.mp hys
    exact ⟨s', hs', congrArg Prod.fst hhanded, congrArg Prod.snd hhanded⟩
  rw [ElfState.getSym] at hs ⊢
  split at hs
  · cases hs
  · rename_i h0
    rw [if_neg h0]
    split at hs
    all_goals rename_i hlocal
    · rw [if_pos hlocal]
      exact hold h.locals hs
    · rw [if_neg hlocal]
      exact hold h.globals hs

end Keeps

theorem getElem?_of_getSection {ref : ℕ} {sec : DataSection} (h : st.getSection ref = some sec) :
    st.sections[ref]? = some (some sec) := by
  rw [getSection] at h
  split at h
  · cases h
  · rw [List.getD_eq_getElem?_getD] at h
    cases hget : st.sections[ref]? with
    | none =>
      rw [hget] at h
      cases h
    | some entry =>
      rw [hget] at h
      rw [show entry = some sec from h]

theorem getSection_modifySection (st : ElfState) (ref : ℕ) (f : DataSection → DataSection) {ref' : ℕ}
    {sec : DataSection} (h : st.getSection ref' = some sec) :
    (st.modifySection ref f).getSection ref' = some (if ref' = ref then f sec else sec) := by
  have hget := getElem?_of_getSection h
  have h0 : ref' ≠ 0 := by
    rintro rfl
    cases h
  rw [modifySection]
  split
  · rename_i old hold
    rw [getSection, if_neg h0, List.getD_eq_getElem?_getD]
    split
    · rename_i heq
      obtain ⟨hlt, -⟩ := List.getElem?_eq_some_iff.mp (getElem?_of_getSection hold)
      rw [heq, hold] at h
      rw [heq, List.getElem?_set_self hlt, Option.some.inj h]
      rfl
    · rename_i hne
      rw [List.getElem?_set_ne (Ne.symm hne), hget]
      rfl
  · rename_i hnone
    rw [h, if_neg]
    rintro rfl
    rw [hnone] at h
    cases h

theorem modifySection_keeps (st : ElfState) (ref : ℕ) {f : DataSection → DataSection}
    (hf : ∀ sec, st.getSection ref = some sec → KeepsSection sec (f sec)) :
    Keeps st (st.modifySection ref f) where
  strtab := by
    rw [modifySection]
    split <;> exact List.prefix_refl _
  shstrtabExtra := by
    rw [modifySection]
    split <;> exact List.prefix_refl _
  locals := by
    rw [modifySection]
    split <;> exact List.prefix_refl _
  globals := by
    rw [modifySection]
    split <;> exact List.prefix_refl _
  sections {ref'} {sec} hsec := by
    refine ⟨_, getSection_modifySection st ref f hsec, ?_⟩
    split
    · rename_i heq
      exact hf sec (heq ▸ hsec)
    · exact .refl sec

theorem getSection_of_append {secs : List (Option DataSection)} (hsecs : st'.sections = st.sections ++ secs)
    {ref : ℕ} {sec : DataSection} (h : st.getSection ref = some sec) : st'.getSection ref = some sec := by
  obtain ⟨hlt, hget⟩ := List.getElem?_eq_some_iff.mp (getElem?_of_getSection h)
  rw [getSection] at h ⊢
  split at h
  · cases h
  · rename_i h0
    rw [if_neg h0, hsecs, List.getD_eq_getElem?_getD, List.getElem?_append_left hlt,
      List.getElem?_eq_getElem hlt, hget]
    rfl

/-- Only what is behind the ends of the tables may differ. -/
theorem Keeps.of_append {strtab shstrtabExtra : List UInt8} {locals globals : List Sym}
    {secs : List (Option DataSection)} (hstrtab : st'.strtab = st.strtab ++ strtab)
    (hshstrtab : st'.shstrtabExtra = st.shstrtabExtra ++ shstrtabExtra)
    (hlocals : st'.localSymbols = st.localSymbols ++ locals)
    (hglobals : st'.globalSymbols = st.globalSymbols ++ globals)
    (hsecs : st'.sections = st.sections ++ secs) : Keeps st st' where
  strtab := hstrtab ▸ List.prefix_append ..
  shstrtabExtra := hshstrtab ▸ List.prefix_append ..
  locals := hlocals ▸ (List.prefix_append ..).map _
  globals := hglobals ▸ (List.prefix_append ..).map _
  sections hsec := ⟨_, getSection_of_append hsecs hsec, .refl _⟩

/-- The states agree on all that is handed over. -/
theorem Keeps.of_eq (hstrtab : st'.strtab = st.strtab) (hshstrtab : st'.shstrtabExtra = st.shstrtabExtra)
    (hlocals : st'.localSymbols = st.localSymbols) (hglobals : st'.globalSymbols = st.globalSymbols)
    (hsecs : st'.sections = st.sections) : Keeps st st' :=
  @of_append st st' [] [] [] [] [] (by simpa) (by simpa) (by simpa) (by simpa) (by simpa)

theorem symDefXindex_keeps (st : ElfState) (sym ref : ℕ) : Keeps st (st.symDefXindex sym ref) := by
  rw [symDefXindex]
  split <;> exact .of_eq rfl rfl rfl rfl rfl

theorem setSym_keeps {sym : ℕ} {s : Sym} (s' : Sym) (hs : st.getSym sym = some s) (hname : s'.name = s.name)
    (hinfo : s'.info = s.info) : Keeps st (st.setSym sym s') := by
  have hset {xs : List Sym} (hi : xs[symIdx sym]? = some s) :
      (xs.set (symIdx sym) s').map handedSym = xs.map handedSym := by
    have hsame : (xs.map handedSym)[symIdx sym]? = some (handedSym s') := by
      rw [List.getElem?_map, hi, Option.map_some, handedSym, handedSym, hname, hinfo]
    obtain ⟨hlt, heq⟩ := List.getElem?_eq_some_iff.mp hsame
    rw [List.map_set, ← heq, List.set_getElem_self]
  rw [getSym] at hs
  split at hs
  · cases hs
  · rw [setSym]
    split at hs
    all_goals rename_i hlocal
    · rw [if_pos hlocal]
      exact ⟨List.prefix_refl _, List.prefix_refl _, (hset hs).symm ▸ List.prefix_refl _, List.prefix_refl _,
        fun h => ⟨_, h, .refl _⟩⟩
    · rw [if_neg hlocal]
      exact ⟨List.prefix_refl _, List.prefix_refl _, List.prefix_refl _, (hset hs).symm ▸ List.prefix_refl _,
        fun h => ⟨_, h, .refl _⟩⟩

theorem createSectionSymbol_keeps (st : ElfState) (ref : ℕ) (name : List UInt8) :
    Keeps st (st.createSectionSymbol ref name).1 := by
  obtain ⟨more, hmore⟩ := strtabAdd_prefix st.strtab name
  have hadd (sym : Sym) : Keeps st { st with
      strtab := (strtabAdd st.strtab name).1, localSymbols := st.localSymbols ++ [sym] } :=
    @Keeps.of_append st _ more [] [sym] [] [] hmore.symm (by simp) rfl (by simp) (by simp)
  rw [createSectionSymbol]
  dsimp only
  split
  · exact (hadd _).trans (symDefXindex_keeps ..)
  · exact hadd _

theorem newSection_keeps (st : ElfState) (type flags name : ℕ) : Keeps st (st.newSection type flags name).1 :=
  @Keeps.of_append st _ [] [] [] [] _ (by simp [newSection]) (by simp [newSection]) (by simp [newSection])
    (by simp [newSection]) rfl

theorem reserveRela_keeps (st : ElfState) : Keeps st st.reserveRela :=
  @Keeps.of_append st _ [] [] [] [] _ (by simp [reserveRela]) (by simp [reserveRela]) (by simp [reserveRela])
    (by simp [reserveRela]) rfl

/-! ### Exception frames -/

theorem ehInitCie_relocs (eh : EhState) (personality : ℕ) :
    eh.relocs <+: (eh.ehInitCie target personality).relocs := by
  have hcie : (eh.ehInitCie target personality).relocs = eh.relocs ∨
      ∃ reloc, (eh.ehInitCie target personality).relocs = eh.relocs ++ [reloc] := by
    rw [EhState.ehInitCie]
    simp only [EhState.write, EhState.relocSec]
    by_cases hp : personality = 0
    · left
      simp only [hp, if_true]
      split <;> rfl
    · right
      simp only [hp, if_false]
      split <;> exact ⟨_, rfl⟩
  obtain h | ⟨reloc, h⟩ := hcie
  · rw [h]
  · rw [h]
    exact List.prefix_append ..

theorem ehBeginFde_relocs (eh : EhState) (personality : ℕ) :
    eh.relocs <+: (eh.ehBeginFde target personality).1.relocs := by
  rw [EhState.ehBeginFde]
  simp only [EhState.write]
  split
  · split <;> exact ehInitCie_relocs eh personality
  · split <;> exact List.prefix_refl _

theorem ehEndFde_relocs (eh : EhState) (fdeStart secSym value size exceptSym exceptOff : ℕ) :
    eh.relocs <+: (eh.ehEndFde target fdeStart secSym value size exceptSym exceptOff).relocs := by
  by_cases hp : eh.curPersonalityFuncAddr = 0
  · simp [EhState.ehEndFde, EhState.write, EhState.relocSec, hp]
  · simp [EhState.ehEndFde, EhState.write, EhState.relocSec, hp]

theorem modifyEh_keeps (st : ElfState) {f : EhState → EhState} (hf : ∀ eh, eh.relocs <+: (f eh).relocs) :
    Keeps st (st.modifyEh f) := by
  rw [modifyEh]
  split
  · exact .refl st
  · rename_i sec hsec
    refine (modifySection_keeps st st.refs.ehFrame fun sec' hsec' => ?_).trans (.of_eq rfl rfl rfl rfl rfl)
    obtain rfl := Option.some.inj (hsec.symm.trans hsec')
    exact ⟨rfl, rfl, rfl, hf (st.ehState sec)⟩

/-! ### Sections -/

theorem newSectionWith_keeps (hne : st.sections ≠ []) (type flags name align : ℕ) (symName : List UInt8)
    (withRela : Bool) : Keeps st (st.newSectionWith type flags name align symName withRela).1 := by
  rw [newSectionWith_eq hne]
  have hsym := createSectionSymbol_keeps st st.sections.length symName
  exact ⟨hsym.strtab, hsym.shstrtabExtra, hsym.locals, hsym.globals,
    fun hsec => ⟨_, getSection_of_append rfl hsec, .refl _⟩⟩

theorem newSectionWith_getSection (hne : st.sections ≠ []) (type flags name align : ℕ)
    (symName : List UInt8) (withRela : Bool) :
    (st.newSectionWith type flags name align symName withRela).1.getSection
      (st.newSectionWith type flags name align symName withRela).2 =
        some (st.madeSection type flags name align withRela) := by
  rw [newSectionWith_eq hne]
  exact getSection_append hne rfl

theorem getOrCreateSection_keeps (hne : st.sections ≠ []) (ref relaName type flags align : ℕ)
    (withRela : Bool) (refs : SecRefs) :
    Keeps st { (st.getOrCreateSection ref relaName type flags align withRela).1 with refs := refs } := by
  rw [getOrCreateSection]
  split
  · exact .of_eq rfl rfl rfl rfl rfl
  · exact (newSectionWith_keeps hne ..).trans (.of_eq rfl rfl rfl rfl rfl)

theorem getDataSection_keeps (hne : st.sections ≠ []) (rodata relro : Bool) :
    Keeps st (st.getDataSection rodata relro) := by
  unfold getDataSection
  generalize secOff ".rela.data" = data
  generalize secOff ".rela.data.rel.ro" = relroName
  generalize secOff ".rela.rodata" = rodataName
  cases rodata with
  | false => exact getOrCreateSection_keeps hne _ data _ _ _ _ _
  | true =>
    cases relro with
    | false => exact getOrCreateSection_keeps hne _ rodataName _ _ _ _ _
    | true => exact getOrCreateSection_keeps hne _ relroName _ _ _ _ _

theorem writeU32_keeps (st : ElfState) (ref v : ℕ) : Keeps st (st.writeU32 ref v) :=
  modifySection_keeps _ _ fun _ _ => ⟨rfl, rfl, rfl, List.prefix_refl _⟩

/-- **The name of a section is handed over**, with that of its relocations. -/
theorem createSection_handed {name : List UInt8} {type flags group : ℕ} {withRela : Bool} {x : ElfState × ℕ}
    (h : st.createSection name type flags withRela group = some x) (hne : st.sections ≠ []) :
    Keeps st x.1 ∧ x.2 = st.sections.length ∧ 0 ∉ name ∧ ∃ sec, x.1.getSection x.2 = some sec ∧
      sec.kind = (withRela, decide (type = shtNobits), type) ∧
      sec.flags = flags + (if group ≠ 0 then shfGroup else 0) ∧
      StringAt (shstrtab ++ x.1.shstrtabExtra) sec.name name ∧
      (withRela = true →
        StringAt (shstrtab ++ x.1.shstrtabExtra) (sec.name - 5) (ascii ".rela" ++ name)) := by
  rw [createSection] at h
  have hrela : (ascii ".rela").length = 5 := by decide +kernel
  generalize shstrtab = base, ascii ".rela" = rela at h hrela ⊢
  split at h
  · cases h
  rename_i hzero
  split at h
  · cases h
  simp only [strtabAddPrefix, Option.some.injEq] at h
  set pre := if withRela = true then rela else [] with hpre
  set secName := if withRela = true then base.length + st.shstrtabExtra.length + 5
    else base.length + st.shstrtabExtra.length with hsecName
  set st₁ : ElfState := { st with shstrtabExtra := st.shstrtabExtra ++ pre ++ name ++ [0] } with hst₁
  set flags' := flags + (if group ≠ 0 then shfGroup else 0)
  set made := newSectionWith st₁ type flags' secName 1 name withRela with hmade
  have hextra : Keeps st st₁ :=
    @Keeps.of_append st _ [] (pre ++ name ++ [0]) [] [] [] (by simp [hst₁]) (by simp [hst₁]) (by simp [hst₁])
      (by simp [hst₁]) (by simp [hst₁])
  have hkeeps : Keeps st₁ made.1 := @newSectionWith_keeps st₁ hne type flags' secName 1 name withRela
  have hwritten : Keeps made.1 x.1 := by
    rw [← h]
    dsimp only
    split
    · exact .refl _
    · split
      · exact (writeU32_keeps ..).trans (writeU32_keeps ..)
      · exact writeU32_keeps ..
  have hsec := @newSectionWith_getSection st₁ hne type flags' secName 1 name withRela
  have href : made.2 = x.2 := by rw [← h]
  rw [← hmade, href] at hsec
  obtain ⟨sec, hsec', hsame⟩ := hwritten.sections hsec
  have htable : base ++ st₁.shstrtabExtra <+: base ++ x.1.shstrtabExtra :=
    (List.prefix_append_right_inj _).mpr (hkeeps.shstrtabExtra.trans hwritten.shstrtabExtra)
  refine ⟨(hextra.trans hkeeps).trans hwritten, ?_, fun h0 => hzero (.inr (.inl h0)), sec, hsec', hsame.kind,
    hsame.flags, ?_, ?_⟩
  · rw [← href, hmade, @newSectionWith_eq st₁ hne]
  · rw [hsame.name]
    refine StringAt.mono ?_ htable
    have hat := StringAt.of_append (base ++ st.shstrtabExtra ++ pre) name []
    have hlen : (base ++ st.shstrtabExtra ++ pre).length = secName := by
      rw [hsecName, hpre]
      cases withRela <;> simp [hrela, Nat.add_assoc]
    rw [hlen] at hat
    simpa [hst₁, madeSection, List.append_assoc] using hat
  · rintro rfl
    rw [hsame.name]
    refine StringAt.mono ?_ htable
    have hat := StringAt.of_append (base ++ st.shstrtabExtra) (rela ++ name) []
    rw [List.length_append] at hat
    simpa [hst₁, madeSection, hsecName, hpre, List.append_assoc] using hat

theorem createStructorSection_keeps {init : Bool} {group : ℕ} {x : ElfState × ℕ}
    (h : st.createStructorSection init group = some x) (hne : st.sections ≠ []) : Keeps st x.1 := by
  obtain ⟨y, hy, rfl⟩ := Option.map_eq_some_iff.mp h
  exact (createSection_handed hy hne).1.trans
    (modifySection_keeps _ _ fun _ _ => ⟨rfl, rfl, rfl, List.prefix_refl _⟩)

theorem createGroupSection_keeps (st : ElfState) (signatureSym : ℕ) (isComdat : Bool) :
    Keeps st (st.createGroupSection signatureSym isComdat).1 :=
  Keeps.trans ((newSection_keeps ..).trans (modifySection_keeps _ _ fun sec _ =>
    show KeepsSection sec { sec with align := 4, sym := signatureSym } from
      ⟨rfl, rfl, rfl, List.prefix_refl _⟩)) (writeU32_keeps ..)

/-! ### Symbols and relocations -/

theorem symAdd_keeps {name : List UInt8} {binding : SymBinding} {type : ℕ} {x : ElfState × ℕ}
    (h : st.symAdd name binding type = some x) : Keeps st x.1 := by
  obtain ⟨more, hmore⟩ := strtabAdd_prefix st.strtab name
  rw [symAdd] at h
  dsimp only at h
  split at h
  all_goals
    split at h
    on_goal 2 => cases h
    obtain rfl := Option.some.inj h
  · exact @Keeps.of_append st _ more [] _ [] [] hmore.symm (by simp) rfl (by simp) (by simp)
  · exact @Keeps.of_append st _ more [] [] _ [] hmore.symm (by simp) (by simp) rfl (by simp)

/-- **The name of a symbol is handed over**, with its binding and its type. -/
theorem symAdd_handed {name : List UInt8} {binding : SymBinding} {type x : ℕ}
    (h : st.symAdd name binding type = some (st', x)) (hlocals : st.localSymbols ≠ [])
    (hstrtab : StringAt st.strtab 0 []) :
    ∃ s, st'.getSym x = some s ∧ StringAt st'.strtab s.name name ∧ s.info = symInfo binding.stb type := by
  obtain ⟨-, -, htab, hs⟩ := symAdd_getSym h hlocals
  exact ⟨_, hs, htab ▸ strtabAdd_stringAt hstrtab name, rfl⟩

theorem symDef_keeps {sym ref pos size : ℕ} (h : st.symDef sym ref pos size = some st') : Keeps st st' := by
  obtain ⟨s, hs, h⟩ := Option.bind_eq_some_iff.mp h
  obtain ⟨sec, hsec, h⟩ := Option.bind_eq_some_iff.mp h
  split at h
  · cases h
  · split at h
    all_goals obtain rfl := Option.some.inj h
    · exact setSym_keeps _ hs rfl rfl
    · exact .trans (setSym_keeps { s with value := pos, size := size, shndx := shnXindex } hs rfl rfl)
        (symDefXindex_keeps ..)

theorem symCopy_keeps {dst src : ℕ} (h : st.symCopy dst src = some st') : Keeps st st' := by
  obtain ⟨d, hd, h⟩ := Option.bind_eq_some_iff.mp h
  obtain ⟨s, hs, h⟩ := Option.bind_eq_some_iff.mp h
  dsimp only at h
  split at h
  · obtain ⟨ref, href, rfl⟩ := Option.map_eq_some_iff.mp h
    exact .trans (setSym_keeps { d with shndx := s.shndx, size := s.size, value := s.value } hd rfl rfl)
      (symDefXindex_keeps ..)
  · obtain rfl := Option.some.inj h
    exact setSym_keeps _ hd rfl rfl

theorem symDefPredefData_keeps {ref sym align : ℕ} {data : List UInt8}
    (h : st.symDefPredefData ref sym data align = some st') : Keeps st st' := by
  obtain ⟨sec, hsec, h⟩ := Option.bind_eq_some_iff.mp h
  obtain ⟨st₁, hdef, h⟩ := Option.bind_eq_some_iff.mp h
  split at h
  · cases h
  · obtain rfl := Option.some.inj h
    refine Keeps.trans ?_ (modifySection_keeps _ _ fun _ _ => ⟨rfl, rfl, rfl, List.prefix_refl _⟩)
    refine Keeps.trans (modifySection_keeps _ _ fun _ _ => ?_) (symDef_keeps hdef)
    exact ⟨rfl, rfl, rfl, List.prefix_refl _⟩

theorem symDefPredefZero_keeps {ref sym size align : ℕ}
    (h : st.symDefPredefZero ref sym size align = some st') : Keeps st st' := by
  obtain ⟨sec, hsec, h⟩ := Option.bind_eq_some_iff.mp h
  obtain ⟨st₁, hdef, h⟩ := Option.bind_eq_some_iff.mp h
  obtain rfl := Option.some.inj h
  refine Keeps.trans (Keeps.trans (modifySection_keeps _ _ fun _ _ => ?_) (symDef_keeps hdef))
    (modifySection_keeps _ _ fun sec _ => ?_)
  · exact ⟨rfl, rfl, rfl, List.prefix_refl _⟩
  · split <;> exact ⟨rfl, rfl, rfl, List.prefix_refl _⟩

/-- **A relocation is handed over.** -/
theorem relocSec_handed {ref sym type offset : ℕ} {addend : ℤ}
    (h : st.relocSec ref sym type offset addend = some st') :
    Keeps st st' ∧ (∃ s, st.getSym sym = some s) ∧
      ∃ sec, st'.getSection ref = some sec ∧ ⟨offset, sym, type, addend⟩ ∈ sec.relocs := by
  obtain ⟨sec, hsec, h⟩ := Option.bind_eq_some_iff.mp h
  obtain ⟨s, hs, h⟩ := Option.bind_eq_some_iff.mp h
  split at h
  · cases h
  · obtain rfl := Option.some.inj h
    refine ⟨modifySection_keeps _ _ fun _ _ => ⟨rfl, rfl, rfl, List.prefix_append ..⟩, ⟨s, hs⟩, _,
      getSection_modifySection st ref _ hsec, ?_⟩
    rw [if_pos rfl]
    exact List.mem_append_right _ (List.mem_singleton.mpr rfl)

theorem setData_keeps {ref : ℕ} {data : List UInt8} (h : st.setData ref data = some st') : Keeps st st' := by
  obtain ⟨sec, hsec, h⟩ := Option.bind_eq_some_iff.mp h
  split at h
  · cases h
  · exact Option.some.inj h ▸ modifySection_keeps _ _ fun _ _ => ⟨rfl, rfl, rfl, List.prefix_refl _⟩

theorem ehEndFde_keeps {fdeStart func : ℕ} (h : st.ehEndFde target fdeStart func = some st')
    (hne : st.sections ≠ []) : Keeps st st' := by
  obtain ⟨s, hs, h⟩ := Option.bind_eq_some_iff.mp h
  obtain ⟨sec, hsec, h⟩ := Option.bind_eq_some_iff.mp h
  obtain rfl := Option.some.inj h
  dsimp only
  refine Keeps.trans ?_ (modifyEh_keeps _ fun eh => ehEndFde_relocs ..)
  split
  · exact .refl _
  · exact getOrCreateSection_keeps hne ..

theorem exceptEncodeFunc_keeps {except : ExceptState} {func : ℕ} {labelOffsets : ℕ → ℕ}
    (h : st.exceptEncodeFunc target except func labelOffsets = some st') : Keeps st st' := by
  rw [exceptEncodeFunc] at h
  split at h
  · split at h
    · obtain rfl := Option.some.inj h
      exact .refl _
    · cases h
  · obtain ⟨s, hs, h⟩ := Option.bind_eq_some_iff.mp h
    obtain ⟨sec, hsec, h⟩ := Option.bind_eq_some_iff.mp h
    split at h
    · cases h
    · obtain rfl := Option.some.inj h
      exact modifySection_keeps _ _ fun _ _ => ⟨rfl, rfl, rfl, List.prefix_append ..⟩

/-! ### Calls -/

/-- A call keeps what was handed over. -/
theorem step_keeps {op : ElfOp} (h : st.step target op = some st') (hne : st.sections ≠ []) :
    Keeps st st' := by
  cases op with
  | getDataSection rodata relro => exact Option.some.inj h ▸ getDataSection_keeps hne ..
  | getBssSection => exact Option.some.inj h ▸ getOrCreateSection_keeps hne ..
  | getTdataSection => exact Option.some.inj h ▸ getOrCreateSection_keeps hne ..
  | getTbssSection => exact Option.some.inj h ▸ getOrCreateSection_keeps hne ..
  | createSection name type flags withRela group =>
    obtain ⟨x, hx, rfl⟩ := Option.map_eq_some_iff.mp h
    exact (createSection_handed hx hne).1
  | createStructorSection init group =>
    obtain ⟨x, hx, rfl⟩ := Option.map_eq_some_iff.mp h
    exact createStructorSection_keeps hx hne
  | createGroupSection signatureSym isComdat => exact Option.some.inj h ▸ createGroupSection_keeps ..
  | symAdd name binding type =>
    obtain ⟨x, hx, rfl⟩ := Option.map_eq_some_iff.mp h
    exact symAdd_keeps hx
  | symDef sym ref pos size => exact symDef_keeps h
  | symCopy dst src => exact symCopy_keeps h
  | symSetVisibility sym visibility =>
    obtain ⟨s, hs, rfl⟩ := Option.map_eq_some_iff.mp h
    exact setSym_keeps _ hs rfl rfl
  | symDefPredefData ref sym data align => exact symDefPredefData_keeps h
  | symDefPredefZero ref sym size align => exact symDefPredefZero_keeps h
  | relocSec ref sym type offset addend => exact (relocSec_handed h).1
  | setData ref data => exact setData_keeps h
  | ehBeginFde personality => exact Option.some.inj h ▸ modifyEh_keeps _ fun eh => ehBeginFde_relocs ..
  | ehWrite bs => exact Option.some.inj h ▸ modifyEh_keeps _ fun _ => List.prefix_refl _
  | ehEndFde fdeStart func => exact ehEndFde_keeps h hne

/-- The names of a new assembler begin with the empty one. -/
theorem init_strtab (target : TargetInfo) : StringAt (init target).strtab 0 [] := by
  rw [init, show resize nullSym [] 1 = [nullSym] from rfl, modifyEh_initSections]
  exact List.prefix_append [0] _

end ElfState

namespace AssemblerElf

variable {target : TargetInfo} {st st' : AssemblerElf}

theorem step_keeps {op : AsmOp} (h : st.step target op = some st') (hne : st.elf.sections ≠ []) :
    Keeps st.elf st'.elf := by
  cases op with
  | elf op =>
    obtain ⟨elf, helf, rfl⟩ := Option.map_eq_some_iff.mp h
    exact ElfState.step_keeps helf hne
  | exceptBeginFunc => exact Option.some.inj h ▸ .refl _
  | except op =>
    have helf : st'.elf = st.elf := by
      cases op with
      | typeIdxForSym sym =>
        obtain ⟨y, hy, rfl⟩ := Option.map_eq_some_iff.mp h
        rfl
      | _ => exact Option.some.inj h ▸ rfl
    exact helf ▸ .refl _
  | exceptEncodeFunc func labelOffsets =>
    obtain ⟨elf, helf, rfl⟩ := Option.map_eq_some_iff.mp h
    exact exceptEncodeFunc_keeps helf

/-- **Calls keep what was handed over.** -/
theorem run_keeps {ops : List AsmOp} (h : run target st ops = some st') (hinv : Inv st.elf) :
    Keeps st.elf st'.elf := by
  induction ops generalizing st with
  | nil => exact Option.some.inj h ▸ .refl _
  | cons op ops ih =>
    obtain ⟨st₂, hstep, h⟩ := Option.bind_eq_some_iff.mp h
    exact (step_keeps hstep hinv.shape.sections_ne_nil).trans (ih h ((step_changes hstep).inv hinv))

/-! ### What is read in the file -/

variable {o : Object} {ops ops' : List AsmOp} {st₁ : AssemblerElf}

/-- **A symbol is in the file under the name that was handed over**, with its binding and its type. -/
theorem symAdd_read {elf : ElfState} {name : List UInt8} {binding : SymBinding} {type x : ℕ}
    (h : run target (new target) ops = some st) (hadd : st.elf.symAdd name binding type = some (elf, x))
    (hrun : run target { st with elf := elf } ops' = some st') (hread : RoundTrip st'.elf o)
    (hzero : 0 ∉ name) :
    ∃ s, (o.symbols (o.header (secIdx ".symtab")))[st'.elf.elfSym x]? = some s ∧
      o.symbolName (o.header (secIdx ".symtab")) s = name ∧ s.info = symInfo binding.stb type := by
  have hinv := run_inv h
  have hinv' : Inv elf := (symAdd_changes hadd).inv hinv
  have hnull : StringAt st.elf.strtab 0 [] :=
    (init_strtab target).mono (run_keeps h (inv_init target)).strtab
  have hlocals : st.elf.localSymbols ≠ [] := by
    intro hnil
    have := hinv.shape.null
    rw [hnil] at this
    cases this
  obtain ⟨s, hs, hname, hinfo⟩ := symAdd_handed hadd hlocals hnull
  have hkeeps := run_keeps hrun hinv'
  obtain ⟨s', hs', hname', hinfo'⟩ := hkeeps.getSym hs
  refine ⟨s', hread.symbols.symbol hs', ?_, hinfo'.trans hinfo⟩
  rw [hread.symbols.name, hname']
  exact (hname.mono hkeeps.strtab).cstring_eq hzero

/-- **A section is in the file under the name that was handed over**, with its type. -/
theorem createSection_read {elf : ElfState} {name : List UInt8} {type flags group ref : ℕ} {withRela : Bool}
    (h : run target (new target) ops = some st)
    (hcreate : st.elf.createSection name type flags withRela group = some (elf, ref))
    (hrun : run target { st with elf := elf } ops' = some st') (hread : RoundTrip st'.elf o) :
    o.sectionName (o.header ref) = name ∧ (o.header ref).type = type ∧
      (o.header ref).flags = flags + (if group ≠ 0 then shfGroup else 0) ∧
      (withRela = true → o.sectionName (o.header (ref + 1)) = ascii ".rela" ++ name) := by
  have hinv := run_inv h
  obtain ⟨-, hlen, hzero, sec, hsec, hkind, hflags, hname, hrela⟩ :=
    createSection_handed hcreate hinv.shape.sections_ne_nil
  have hkeeps := run_keeps hrun ((createSection_changes hcreate).inv hinv)
  obtain ⟨sec', hsec', hsame⟩ := hkeeps.sections hsec
  have hat := hread.sections ((predefSecCount_le hinv.shape).trans hlen.ge) (getElem?_of_getSection hsec')
  have htable : shstrtab ++ elf.shstrtabExtra <+: shstrtab ++ st'.elf.shstrtabExtra :=
    (List.prefix_append_right_inj _).mpr hkeeps.shstrtabExtra
  have hkind' : sec'.kind = (withRela, decide (type = shtNobits), type) := hsame.kind.trans hkind
  refine ⟨?_, ?_, ?_, fun hw => ?_⟩
  · rw [hat.name, hsame.name]
    exact (hname.mono htable).cstring_eq hzero
  · rw [hat.type]
    exact congrArg (fun kind => kind.2.2) hkind'
  · rw [hat.flags, hsame.flags, hflags]
  · have hrelas := hread.relas (getElem?_of_getSection hsec') (.inl ((congrArg Prod.fst hkind').trans hw))
    rw [hrelas.name, hsame.name]
    refine ((hrela hw).mono htable).cstring_eq ?_
    rw [List.mem_append, not_or]
    exact ⟨by decide +kernel, hzero⟩

/-- **A relocation is in the file** with the symbol and the section that it was made for. -/
theorem relocSec_read {elf : ElfState} {ref sym type offset : ℕ} {addend : ℤ}
    (h : run target (new target) ops = some st)
    (hreloc : st.elf.relocSec ref sym type offset addend = some elf)
    (hrun : run target { st with elf := elf } ops' = some st') (hread : RoundTrip st'.elf o) :
    ∃ rela ∈ o.relas (o.header (ref + 1)), rela.offset = offset ∧ rela.sym = st'.elf.elfSym sym ∧
      rela.type = type ∧ signed64 rela.addend = addend := by
  have hinv := run_inv h
  obtain ⟨-, -, sec, hsec, hmem⟩ := relocSec_handed hreloc
  have hkeeps := run_keeps hrun ((relocSec_changes hreloc).inv hinv)
  obtain ⟨sec', hsec', hsame⟩ := hkeeps.sections hsec
  have hmem' := hsame.relocs.subset hmem
  have hrelas := (hread.relas (getElem?_of_getSection hsec') (.inr (List.ne_nil_of_mem hmem'))).relas
  have hin := List.mem_map_of_mem hmem' (f := fun reloc : Relocation =>
    (reloc.offset, st'.elf.elfSym reloc.symbol, reloc.type, reloc.addend))
  rw [← hrelas] at hin
  obtain ⟨rela, hrela, heq⟩ := List.mem_map.mp hin
  simp only [Prod.mk.injEq] at heq
  exact ⟨rela, hrela, heq⟩

end AssemblerElf

end Tpde.Assembler
