import Tpde.Assembler.Changes
import Tpde.Assembler.Reset

/-!
# The tables of an assembler

What holds of the tables of an assembler after any calls (`run_inv`): the section behind
one that has room for relocations is reserved, the first symbol is the null symbol,
symbols are in the table for their binding, and where the section of a symbol does not fit
into the symbol, it is in a table that is not longer than that of the symbols. The last
holds as long as references to local symbols can be told from others.
-/

namespace Tpde.Assembler

open Bytes Elf ElfState Relation

namespace ElfState

variable {st st' : ElfState} {target : TargetInfo}

/-! ### Sections of symbols -/

/-- The sections of some symbols fit, or are in a table. -/
structure TableOk (syms : List Sym) (shndx : List ℕ) : Prop where
  length : shndx.length ≤ syms.length
  entry {i : ℕ} {s : Sym} (hs : syms[i]? = some s) : s.shndx < shnLoreserve ∨ s.shndx = shnXindex ∧
    i < shndx.length

theorem length_setShndx (shndx : List ℕ) (i ref : ℕ) :
    (setShndx shndx i ref).length = max shndx.length (i + 1) := by
  rw [setShndx, List.length_set]
  split
  · simp only [resize, List.length_append, List.length_take, List.length_replicate]
    omega
  · omega

theorem setShndx_ne_nil (shndx : List ℕ) (i ref : ℕ) : setShndx shndx i ref ≠ [] := by
  have hlen := length_setShndx shndx i ref
  intro h
  rw [h, List.length_nil] at hlen
  omega

namespace TableOk

variable {syms : List Sym} {shndx : List ℕ}

theorem append (h : TableOk syms shndx) {sym : Sym} (hsym : sym.shndx < shnLoreserve) :
    TableOk (syms ++ [sym]) shndx where
  length := by
    have hlen := h.length
    rw [List.length_append]
    omega
  entry {i s} hs := by
    rw [List.getElem?_append] at hs
    split at hs
    · exact h.entry hs
    · cases hi : i - syms.length with
      | zero =>
        rw [hi, List.getElem?_cons_zero] at hs
        cases hs
        exact .inl hsym
      | succ n => simp [hi] at hs

theorem set (h : TableOk syms shndx) {i : ℕ} {sym : Sym}
    (hsym : sym.shndx < shnLoreserve ∨ sym.shndx = shnXindex ∧ i < shndx.length) :
      TableOk (syms.set i sym) shndx where
  length := by
    rw [List.length_set]
    exact h.length
  entry {j s} hs := by
    rw [List.getElem?_set] at hs
    split at hs
    · rename_i hij
      split at hs
      · cases hs
        rw [← hij]
        exact hsym
      · cases hs
    · exact h.entry hs

theorem setXindex (h : TableOk syms shndx) {i : ℕ} {sym : Sym} (hi : i < syms.length)
    (hsym : sym.shndx = shnXindex) (ref : ℕ) :
    TableOk (syms.set i sym) (setShndx shndx i ref) where
  length := by
    have hlen := h.length
    rw [List.length_set, length_setShndx]
    omega
  entry {j s} hs := by
    rw [length_setShndx]
    rw [List.getElem?_set] at hs
    split at hs
    · rename_i hij
      cases hs
      exact .inr ⟨hsym, by omega⟩
    · cases h.entry hs with
      | inl hlt => exact .inl hlt
      | inr hx => exact .inr ⟨hx.1, by omega⟩

/-- A symbol that is made for a section that does not fit. -/
theorem appendXindex (h : TableOk syms shndx) {sym : Sym} (hsym : sym.shndx = shnXindex) (ref : ℕ) :
    TableOk (syms ++ [sym]) (setShndx shndx syms.length ref) := by
  have happend : TableOk (syms ++ [nullSym]) shndx := h.append (by decide)
  have hset := happend.setXindex (i := syms.length) (by simp) hsym ref
  rwa [List.set_append_right _ _ le_rfl, Nat.sub_self, List.set_cons_zero] at hset

/-- The section of a symbol that is not in the table fits. -/
theorem lt_of_ne (h : TableOk syms shndx) {i : ℕ} {s : Sym} (hs : syms[i]? = some s)
    (hne : s.shndx ≠ shnXindex) :
    s.shndx < shnLoreserve := by
  cases h.entry hs with
  | inl hlt => exact hlt
  | inr hx => exact absurd hx.1 hne

end TableOk

/-! ### The invariant -/

/-- The room for a section, and for its relocations. -/
def room (withRela : Bool) : List (Option Bool) := some withRela :: if withRela then [none] else []

/-- The kinds of all sections. -/
def kinds (st : ElfState) : List (Option (Bool × Bool × ℕ)) := st.sections.map (Option.map DataSection.kind)

/-- What holds of the sections and the symbols. -/
structure Shape (st : ElfState) : Prop where
  rooms : ∃ withRela : List Bool,
    st.kinds.map (Option.map Prod.fst) = (List.replicate predefSecCount false ++ withRela).flatMap room
  virtual : ∀ kind, some kind ∈ st.kinds → kind.2.1 = decide (kind.2.2 = shtNobits)
  null : st.localSymbols[0]? = some nullSym
  locals : ∀ s ∈ st.localSymbols, s.bind = stbLocal
  globals : ∀ s ∈ st.globalSymbols, s.bind ≠ stbLocal
  globalCount : st.globalSymbols.length < 2 ^ 31

/-- What holds of the tables with the sections of symbols. -/
structure XindexOk (st : ElfState) : Prop where
  locals : TableOk st.localSymbols st.localShndx
  globals : TableOk st.globalSymbols st.globalShndx
  few (h : st.sections.length < shnLoreserve) : st.localShndx = [] ∧ st.globalShndx = []

/-- What holds after any calls. -/
structure Inv (st : ElfState) : Prop where
  shape : Shape st
  xindex (h : st.localSymbols.length ≤ 2 ^ 31) : XindexOk st

theorem predefSecCount_eq : predefSecCount = 5 := by decide +kernel

/-! ### The shape -/

namespace Shape

theorem sections_ne_nil (h : Shape st) : st.sections ≠ [] := by
  obtain ⟨ws, hws⟩ := h.rooms
  intro hnil
  rw [kinds, hnil, predefSecCount_eq, List.replicate_succ] at hws
  cases hws

theorem congr (h : Shape st) (hkinds : st'.kinds = st.kinds) (hl : st'.localSymbols = st.localSymbols)
    (hg : st'.globalSymbols = st.globalSymbols) : Shape st' where
  rooms := hkinds ▸ h.rooms
  virtual := hkinds ▸ h.virtual
  null := hl ▸ h.null
  locals := hl ▸ h.locals
  globals := hg ▸ h.globals
  globalCount := hg ▸ h.globalCount

theorem appendSections (h : Shape st) {sections : List (Option DataSection)} {withRela : Bool}
    (hmap : sections.map (Option.map DataSection.hasRelocs) = room withRela)
    (hvirtual : ∀ sec, some sec ∈ sections → sec.isVirtual = decide (sec.type = shtNobits)) :
    Shape { st with sections := st.sections ++ sections } where
  rooms := by
    obtain ⟨ws, hws⟩ := h.rooms
    refine ⟨ws ++ [withRela], ?_⟩
    rw [← List.append_assoc, List.flatMap_append, ← hws, List.flatMap_singleton, ← hmap, kinds, kinds,
      List.map_append,
      List.map_append]
    congr 1
    rw [List.map_map]
    refine List.map_congr_left fun x _ => ?_
    cases x <;> rfl
  virtual kind hkind := by
    rw [kinds, List.map_append] at hkind
    cases List.mem_append.mp hkind with
    | inl hkind => exact h.virtual kind hkind
    | inr hkind =>
      obtain ⟨x, hx, hkind⟩ := List.mem_map.mp hkind
      obtain ⟨sec, rfl, rfl⟩ := Option.map_eq_some_iff.mp hkind
      exact hvirtual sec hx
  null := h.null
  locals := h.locals
  globals := h.globals
  globalCount := h.globalCount

theorem addLocal (h : Shape st) {sym : Sym} (hbind : sym.bind = stbLocal) :
    Shape { st with localSymbols := st.localSymbols ++ [sym] } where
  rooms := h.rooms
  virtual := h.virtual
  null := by
    rw [List.getElem?_append_left (List.getElem?_eq_some_iff.mp h.null).1]
    exact h.null
  locals s hs := by
    cases List.mem_append.mp hs with
    | inl hs => exact h.locals s hs
    | inr hs =>
      rw [List.mem_singleton.mp hs]
      exact hbind
  globals := h.globals
  globalCount := h.globalCount

theorem addGlobal (h : Shape st) {sym : Sym} (hbind : sym.bind ≠ stbLocal)
    (hlen : st.globalSymbols.length + 1 < 2 ^ 31) :
    Shape { st with globalSymbols := st.globalSymbols ++ [sym] } where
  rooms := h.rooms
  virtual := h.virtual
  null := h.null
  locals := h.locals
  globals s hs := by
    cases List.mem_append.mp hs with
    | inl hs => exact h.globals s hs
    | inr hs =>
      rw [List.mem_singleton.mp hs]
      exact hbind
  globalCount := by
    rw [List.length_append]
    exact hlen

theorem kinds_modifySection (ref : ℕ) {f : DataSection → DataSection} (hf : ∀ sec, (f sec).kind = sec.kind) :
    (st.modifySection ref f).kinds = st.kinds := by
  rw [ElfState.modifySection]
  split
  · rename_i sec hsec
    rw [getSection, List.getD_eq_getElem?_getD] at hsec
    split at hsec
    · cases hsec
    · cases hget : st.sections[ref]? with
      | none =>
        rw [hget] at hsec
        cases hsec
      | some x =>
        rw [hget] at hsec
        cases hsec
        obtain ⟨hlt, hget⟩ := List.getElem?_eq_some_iff.mp hget
        have hset := @List.set_getElem_self _ st.kinds ref (by simpa [kinds] using hlt)
        simp only [kinds, List.getElem_map, hget, Option.map_some] at hset
        rw [kinds, List.map_set, Option.map_some, hf]
        exact hset
  · rfl

end Shape

/-! ### The table of a symbol -/

/-- A symbol is found in its table. -/
theorem getSym_eq_some {sym : ℕ} {s : Sym} (h : st.getSym sym = some s) :
    sym ≠ 0 ∧ (if symIsLocal sym then st.localSymbols else st.globalSymbols)[symIdx sym]? = some s := by
  rw [getSym] at h
  split at h
  · cases h
  · rename_i h0
    refine ⟨h0, ?_⟩
    split at h
    · rename_i hlocal
      rw [if_pos hlocal]
      exact h
    · rename_i hlocal
      rw [if_neg hlocal]
      exact h

@[simp]
theorem symDefXindex_sections (st : ElfState) (sym ref : ℕ) :
    (st.symDefXindex sym ref).sections = st.sections := by
  rw [symDefXindex]
  split <;> rfl

@[simp]
theorem symDefXindex_localSymbols (st : ElfState) (sym ref : ℕ) :
    (st.symDefXindex sym ref).localSymbols = st.localSymbols := by
  rw [symDefXindex]
  split <;> rfl

@[simp]
theorem symDefXindex_globalSymbols (st : ElfState) (sym ref : ℕ) :
    (st.symDefXindex sym ref).globalSymbols = st.globalSymbols := by
  rw [symDefXindex]
  split <;> rfl

theorem Shape.symDefXindex (h : Shape st) (sym ref : ℕ) : Shape (st.symDefXindex sym ref) := by
  refine h.congr ?_ (symDefXindex_localSymbols ..) (symDefXindex_globalSymbols ..)
  rw [kinds, symDefXindex_sections, kinds]

/-- A symbol that is set keeps its binding, and is not the null symbol. -/
theorem Shape.setSym (h : Shape st) {sym : ℕ} {s s' : Sym} (hs : st.getSym sym = some s)
    (hinfo : s'.info = s.info) :
    Shape (st.setSym sym s') := by
  obtain ⟨h0, hs⟩ := getSym_eq_some hs
  have hbind : s'.bind = s.bind := by rw [Sym.bind, hinfo, Sym.bind]
  rw [ElfState.setSym]
  split
  · rename_i hlocal
    rw [if_pos hlocal] at hs
    constructor
    · exact h.rooms
    · exact h.virtual
    · rw [List.getElem?_set_ne]
      · exact h.null
      · simp only [symIsLocal, decide_eq_true_eq] at hlocal
        rw [symIdx]
        omega
    · intro t ht
      cases List.mem_or_eq_of_mem_set ht with
      | inl ht => exact h.locals t ht
      | inr ht =>
        rw [ht, hbind]
        exact h.locals s (List.mem_of_getElem? hs)
    · exact h.globals
    · exact h.globalCount
  · rename_i hlocal
    rw [if_neg hlocal] at hs
    constructor
    · exact h.rooms
    · exact h.virtual
    · exact h.null
    · exact h.locals
    · intro t ht
      cases List.mem_or_eq_of_mem_set ht with
      | inl ht => exact h.globals t ht
      | inr ht =>
        rw [ht, hbind]
        exact h.globals s (List.mem_of_getElem? hs)
    · rw [List.length_set]
      exact h.globalCount

theorem setSym_length (st : ElfState) (sym : ℕ) (s : Sym) :
    (st.setSym sym s).localSymbols.length = st.localSymbols.length := by
  rw [setSym]
  split
  · exact List.length_set
  · rfl

/-! ### Changes -/

theorem Inv.same (h : Inv st) (hs : SameTables st st') : Inv st' where
  shape := by
    refine h.shape.congr ?_ hs.localSymbols hs.globalSymbols
    rw [kinds, hs.sections, kinds]
  xindex hlen := by
    have hx := h.xindex (hs.localSymbols ▸ hlen)
    constructor
    · rw [hs.localSymbols, hs.localShndx]
      exact hx.locals
    · rw [hs.globalSymbols, hs.globalShndx]
      exact hx.globals
    · rw [hs.sections, hs.localShndx, hs.globalShndx]
      exact hx.few

theorem Inv.modifySection (h : Inv st) (ref : ℕ) {f : DataSection → DataSection}
    (hf : ∀ sec, (f sec).kind = sec.kind) : Inv (st.modifySection ref f) := by
  have hkinds := @Shape.kinds_modifySection st ref _ hf
  rw [ElfState.modifySection] at hkinds ⊢
  split at hkinds
  · have hlen := congrArg List.length hkinds
    simp only [kinds, List.length_map] at hlen
    exact ⟨h.shape.congr hkinds rfl rfl,
      fun hl => ⟨(h.xindex hl).locals, (h.xindex hl).globals, fun hf => (h.xindex hl).few (hlen ▸ hf)⟩⟩
  · exact h

theorem Inv.appendSections (h : Inv st) {sections : List (Option DataSection)} {withRela : Bool}
    (hmap : sections.map (Option.map DataSection.hasRelocs) = room withRela)
    (hvirtual : ∀ sec, some sec ∈ sections → sec.isVirtual = decide (sec.type = shtNobits)) :
    Inv { st with sections := st.sections ++ sections } where
  shape := h.shape.appendSections hmap hvirtual
  xindex hlen := by
    have hx := h.xindex hlen
    refine ⟨hx.locals, hx.globals, fun hfew => hx.few ?_⟩
    rw [List.length_append] at hfew
    omega

theorem Inv.createSectionSymbol (h : Inv st) {ref : ℕ} (href : ref < st.sections.length) (name : List UInt8) :
    Inv (st.createSectionSymbol ref name).1 := by
  have hshape (sym : Sym) (hsym : sym.info = symInfo stbLocal sttSection) (strtab : List UInt8) :
      Shape { st with strtab := strtab, localSymbols := st.localSymbols ++ [sym] } := by
    have hbind : sym.bind = stbLocal := by
      rw [Sym.bind, hsym]
      decide
    exact (h.shape.addLocal hbind).congr rfl rfl rfl
  rw [ElfState.createSectionSymbol]
  simp only
  split
  · rename_i hxindex
    simp only [secIsXindex, decide_eq_true_eq] at hxindex
    refine ⟨(hshape _ rfl _).symDefXindex _ _, fun hlen => ?_⟩
    rw [symDefXindex_localSymbols, List.length_append, List.length_singleton] at hlen
    have hx := h.xindex (by omega)
    have hlocal : symIsLocal st.localSymbols.length = true := by
      simp only [symIsLocal, decide_eq_true_eq]
      omega
    have hidx : symIdx st.localSymbols.length = st.localSymbols.length := by
      rw [symIdx]
      omega
    rw [symDefXindex, if_pos hlocal, hidx]
    exact ⟨hx.locals.appendXindex rfl ref, hx.globals, fun hfew => absurd hfew (by simp only; omega)⟩
  · rename_i hxindex
    simp only [secIsXindex, decide_eq_true_eq, not_le] at hxindex
    refine ⟨hshape _ rfl _, fun hlen => ?_⟩
    rw [List.length_append, List.length_singleton] at hlen
    have hx := h.xindex (by omega)
    exact ⟨hx.locals.append hxindex, hx.globals, hx.few⟩

theorem Inv.newSectionWith (h : Inv st) (type flags name align : ℕ) (symName : List UInt8) (withRela : Bool) :
    Inv (st.newSectionWith type flags name align symName withRela).1 := by
  have hsections :
    Inv { st with sections := st.sections ++ some (st.madeSection type flags name align withRela) ::
      if withRela then [none] else [] } := by
    refine @Inv.appendSections _ h _ withRela ?_ fun sec hsec => ?_
    · cases withRela <;> rfl
    · cases List.mem_cons.mp hsec with
      | inl heq =>
        cases heq
        rfl
      | inr hmem => cases withRela <;> simp at hmem
  have hsym := @Inv.createSectionSymbol _ hsections st.sections.length (by simp) symName
  rw [createSectionSymbol_sections] at hsym
  rw [newSectionWith_eq h.shape.sections_ne_nil]
  exact hsym

/-- The table in which a symbol is, and the one for its section. -/
theorem XindexOk.table (hx : XindexOk st) (sym : ℕ) :
    TableOk (if symIsLocal sym then st.localSymbols else st.globalSymbols)
      (if symIsLocal sym then st.localShndx else st.globalShndx) := by
  split
  · exact hx.locals
  · exact hx.globals

theorem Inv.setSym (h : Inv st) {sym : ℕ} {s : Sym} (s' : Sym) (hs : st.getSym sym = some s)
    (hinfo : s'.info = s.info)
    (hshndx : s'.shndx = s.shndx ∨ PlainShndx st s'.shndx) : Inv (st.setSym sym s') where
  shape := h.shape.setSym hs hinfo
  xindex hlen := by
    rw [setSym_length] at hlen
    have hx := h.xindex hlen
    obtain ⟨-, hs⟩ := getSym_eq_some hs
    have hentry : s'.shndx < shnLoreserve ∨ s'.shndx = shnXindex ∧
        symIdx sym < (if symIsLocal sym then st.localShndx else st.globalShndx).length := by
      cases hshndx with
      | inl heq =>
        rw [heq]
        exact (hx.table sym).entry hs
      | inr hplain =>
        cases hplain with
        | inl hlt => exact .inl hlt
        | inr hcopy =>
          obtain ⟨sym₂, s₂, hs₂, hne, heq⟩ := hcopy
          rw [← heq]
          exact .inl ((hx.table sym₂).lt_of_ne (getSym_eq_some hs₂).2 hne)
    rw [ElfState.setSym]
    split
    · rename_i hlocal
      rw [if_pos hlocal] at hentry
      exact ⟨hx.locals.set hentry, hx.globals, hx.few⟩
    · rename_i hlocal
      rw [if_neg hlocal] at hentry
      exact ⟨hx.locals, hx.globals.set hentry, hx.few⟩

theorem Inv.setXindex (h : Inv st) {sym ref : ℕ} {s : Sym} (s' : Sym) (hs : st.getSym sym = some s)
    (hinfo : s'.info = s.info)
    (hshndx : s'.shndx = shnXindex)
    (href : (shnLoreserve ≤ ref ∧ ∃ sec, st.getSection ref = some sec) ∨
      ref ∈ st.localShndx ++ st.globalShndx) :
    Inv ((st.setSym sym s').symDefXindex sym ref) where
  shape := (h.shape.setSym hs hinfo).symDefXindex _ _
  xindex hlen := by
    rw [symDefXindex_localSymbols, setSym_length] at hlen
    have hx := h.xindex hlen
    obtain ⟨-, hs⟩ := getSym_eq_some hs
    have hmany : shnLoreserve ≤ st.sections.length := by
      by_contra hfew
      obtain ⟨hl, hg⟩ := hx.few (not_le.mp hfew)
      cases href with
      | inl hsec =>
        obtain ⟨hle, sec, hsec⟩ := hsec
        rw [getSection, List.getD_eq_getElem?_getD, List.getElem?_eq_none (by omega)] at hsec
        split at hsec <;> cases hsec
      | inr hmem =>
        rw [hl, hg] at hmem
        cases hmem
    rw [symDefXindex]
    split
    · rename_i hlocal
      rw [if_pos hlocal] at hs
      rw [ElfState.setSym, if_pos hlocal]
      exact ⟨hx.locals.setXindex (List.getElem?_eq_some_iff.mp hs).1 hshndx ref, hx.globals,
        fun hfew => absurd hfew (not_lt.mpr hmany)⟩
    · rename_i hlocal
      rw [if_neg hlocal] at hs
      rw [ElfState.setSym, if_neg hlocal]
      exact ⟨hx.locals, hx.globals.setXindex (List.getElem?_eq_some_iff.mp hs).1 hshndx ref,
        fun hfew => absurd hfew (not_lt.mpr hmany)⟩

/-- One change keeps the invariant. -/
theorem Change.inv (hc : Change st st') (h : Inv st) : Inv st' := by
  cases hc with
  | same hs => exact h.same hs
  | «section» ref f hf => exact h.modifySection ref hf
  | newSection type flags name =>
    refine @Inv.appendSections _ h _ false rfl fun sec hsec => ?_
    cases List.mem_singleton.mp hsec
    rfl
  | made type flags name align symName withRela => exact h.newSectionWith ..
  | setSym s' hs hinfo hshndx => exact h.setSym s' hs hinfo hshndx
  | setXindex s' hs hinfo hshndx href => exact h.setXindex s' hs hinfo hshndx href
  | addLocal sym hbind hshndx hlen =>
    refine ⟨h.shape.addLocal hbind, fun hlen' => ?_⟩
    have hx := h.xindex (by omega)
    exact ⟨hx.locals.append (hshndx ▸ by decide), hx.globals, hx.few⟩
  | addGlobal sym hbind hshndx hlen =>
    refine ⟨h.shape.addGlobal hbind hlen, fun hlen' => ?_⟩
    have hx := h.xindex hlen'
    exact ⟨hx.locals, hx.globals.append (hshndx ▸ by decide), hx.few⟩

theorem Changes.inv (hc : Changes st st') (h : Inv st) : Inv st' := by
  induction hc with
  | refl => exact h
  | tail _ hc ih => exact hc.inv ih

/-- A new assembler. -/
theorem inv_init (target : TargetInfo) : Inv (init target) := by
  have hinit : init target = _ := modifyEh_initSections target [] [] 0 0
  rw [hinit]
  refine ⟨⟨⟨[true, true], ?_⟩, ?_, rfl, ?_, ?_, by simp⟩,
    fun _ => ⟨⟨by simp, ?_⟩, ⟨by simp, ?_⟩, fun _ => ⟨rfl, rfl⟩⟩⟩
  · rw [predefSecCount_eq]
    rfl
  · intro kind hkind
    obtain ⟨x, hx, hkind⟩ := List.mem_map.mp hkind
    obtain ⟨sec, rfl, rfl⟩ := Option.map_eq_some_iff.mp hkind
    simp only [List.replicate, List.cons_append, List.nil_append, List.mem_cons, Option.some.injEq,
      List.not_mem_nil,
      reduceCtorEq, or_false, false_or, or_self, or_self_left] at hx
    rcases hx with rfl | rfl | rfl <;> rfl
  · intro s hs
    simp only [List.mem_cons, List.not_mem_nil, or_false] at hs
    rcases hs with rfl | rfl | rfl <;> decide
  · intro s hs
    cases hs
  · intro i s hs
    have hmem := List.mem_of_getElem? hs
    simp only [List.mem_cons, List.not_mem_nil, or_false] at hmem
    rcases hmem with rfl | rfl | rfl <;> exact .inl (by decide)
  · intro i s hs
    cases hs

end ElfState

/-- **Any calls keep the invariant.** -/
theorem AssemblerElf.run_inv {target : TargetInfo} {ops : List AsmOp} {st : AssemblerElf}
    (h : run target (new target) ops = some st) :
    Inv st.elf := (run_changes h).inv (inv_init target)

end Tpde.Assembler
