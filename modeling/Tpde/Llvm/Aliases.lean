import Tpde.Assembler.Symbols
import Tpde.Assembler.Tables

/-!
# Global aliases

`LLVMCompilerBase::compile` declares all globals of a module, defines its variables and
functions, and then goes once over the aliases and copies to each the symbol of its aliasee.
An alias gets what its aliasee has at that time. So all aliases are where their chains end if
and only if every alias of an alias is behind it in the module (`compile_aliases_iff`).
-/

namespace Tpde.Aliases

open Bytes Elf Tpde.Assembler ElfState

def sttObject : ℕ := 1
def sttFunc : ℕ := 2
def sttTls : ℕ := 6

/-! ### Modules -/

/-- `VisibilityTypes`. -/
inductive Visibility where
  | defaultVisibility
  | hiddenVisibility
  | protectedVisibility
  deriving DecidableEq

/-- `convert_visibility`, as it is in the symbol table. -/
def Visibility.stv : Visibility → ℕ
  | .defaultVisibility => 0
  | .hiddenVisibility => 2
  | .protectedVisibility => 3

/-- What the symbol of a global depends on. -/
structure GlobalValue where
  name : List UInt8
  localLinkage : Bool := false
  weakForLinker : Bool := false
  appendingLinkage : Bool := false
  threadLocal : Bool := false
  declarationForLinker : Bool := false
  visibility : Visibility := .defaultVisibility

/-- A function, a variable or an alias of a module, in the order of their declaration. -/
inductive Global where
  | function (i : ℕ)
  | globalVar (i : ℕ)
  | globalAlias (i : ℕ)
  deriving DecidableEq

/-- A module: its globals, and the aliasees of its aliases. -/
structure Module where
  funcs : List GlobalValue
  vars : List GlobalValue
  aliases : List (GlobalValue × Global)

/-- `convert_linkage`. -/
def convertLinkage (gv : GlobalValue) : SymBinding :=
  if gv.localLinkage then .localSym else if gv.weakForLinker then .weakSym else .globalSym

/-- The binding of a function, in `CompilerBase::compile`. -/
def funcBinding (gv : GlobalValue) : SymBinding :=
  if gv.weakForLinker then .weakSym else if gv.localLinkage then .localSym else .globalSym

/-! ### Declarations -/

/-- A symbol with its visibility. -/
def addSym (st : ElfState) (gv : GlobalValue) (binding : SymBinding) (type : ℕ) : Option (ElfState × ℕ) := do
  let (st, sym) ← st.symAdd gv.name binding type
  if gv.visibility = .defaultVisibility then return (st, sym)
  else return (← st.symSetVisibility sym gv.visibility.stv, sym)

/-- The symbol of a function, from `CompilerBase::compile` and `define_func_idx`. -/
def declareFunc (st : ElfState) (gv : GlobalValue) : Option (ElfState × Option ℕ) :=
  (addSym st gv (funcBinding gv) (if gv.declarationForLinker then sttNotype else sttFunc)).map fun x =>
    (x.1, some x.2)

/-- The globals with appending linkage that are known. -/
def appendingNames : List (List UInt8) :=
  ["llvm.global_ctors", "llvm.global_dtors", "llvm.used", "llvm.compiler.used"].map ascii

/-- `declare_global`. A global with appending linkage has no symbol. -/
def declareGlobal (st : ElfState) (gv : GlobalValue) : Option (ElfState × Option ℕ) :=
  if gv.name = [] then none
  else if gv.appendingLinkage then if gv.name ∈ appendingNames then some (st, none) else none
  else
    let type := if gv.threadLocal then sttTls else if gv.declarationForLinker then sttNotype else sttObject
    (addSym st gv (convertLinkage gv) type).map fun x => (x.1, some x.2)

/-- The symbols of some globals in their order. -/
def declareAll (declare : ElfState → GlobalValue → Option (ElfState × Option ℕ)) :
    ElfState → List GlobalValue → Option (ElfState × List (Option ℕ))
  | st, [] => some (st, [])
  | st, gv :: gvs => do
    let (st, sym) ← declare st gv
    let (st, syms) ← declareAll declare st gvs
    return (st, sym :: syms)

/-- `global_syms`. -/
structure Syms where
  funcs : List (Option ℕ)
  vars : List (Option ℕ)
  aliases : List (Option ℕ)

/-- `global_sym`. -/
def Syms.globalSym (syms : Syms) : Global → Option ℕ
  | .function i => syms.funcs.getD i none
  | .globalVar i => syms.vars.getD i none
  | .globalAlias i => syms.aliases.getD i none

/-- The symbols of the aliases. -/
def Syms.ofAliases (syms : Syms) : List ℕ := syms.aliases.filterMap id

/-- The symbols of all globals. -/
def Module.declare (m : Module) (st : ElfState) : Option (ElfState × Syms) := do
  let (st, funcs) ← declareAll declareFunc st m.funcs
  let (st, vars) ← declareAll declareGlobal st m.vars
  let (st, aliases) ← declareAll declareGlobal st (m.aliases.map Prod.fst)
  return (st, ⟨funcs, vars, aliases⟩)

/-! ### Compilation -/

/-- `CompilerBase::compile`: the declarations, and the calls for the variables and functions. -/
def Module.compileBase (target : TargetInfo) (m : Module) (body : List AsmOp) (st : AssemblerElf) :
    Option (AssemblerElf × Syms) := do
  let (elf, syms) ← m.declare st.elf
  let st ← AssemblerElf.run target { st with elf := elf } body
  return (st, syms)

/-- The copies for some aliases, the first of which is `i`. -/
def copyAliases (syms : Syms) : ElfState → ℕ → List (GlobalValue × Global) → Option ElfState
  | st, _, [] => some st
  | st, i, ga :: rest => do
    let dst ← syms.globalSym (.globalAlias i)
    let src ← syms.globalSym ga.2
    let st ← st.symCopy dst src
    copyAliases syms st (i + 1) rest

/-- `compile`. -/
def Module.compile (target : TargetInfo) (m : Module) (body : List AsmOp) (st : AssemblerElf) :
    Option (AssemblerElf × Syms) := do
  let (st, syms) ← m.compileBase target body st
  let elf ← copyAliases syms st.elf 0 m.aliases
  return ({ st with elf := elf }, syms)

/-! ### Chains -/

/-- The object that the chain of an alias ends in. -/
inductive Module.EndsIn (m : Module) : ℕ → Global → Prop
  | object {i : ℕ} {gv : GlobalValue} {g : Global} (h : m.aliases[i]? = some (gv, g)) (hg : ∀ j,
    g ≠ .globalAlias j) : m.EndsIn i g
  | link {i j : ℕ} {gv : GlobalValue} {g : Global} (h : m.aliases[i]? = some (gv, .globalAlias j))
    (hj : m.EndsIn j g) : m.EndsIn i g

/-- Every chain ends. -/
def Module.Acyclic (m : Module) : Prop := ∀ i < m.aliases.length, ∃ g, m.EndsIn i g

/-- An alias is where an object is, with its own binding and visibility. -/
def Module.Resolved (m : Module) (syms : Syms) (st : ElfState) (i : ℕ) (g : Global) : Prop :=
  ∃ x y s p ga, syms.globalSym (.globalAlias i) = some x ∧ syms.globalSym g = some y ∧
    st.place y = some p ∧ st.place x = some p ∧
    st.getSym x = some s ∧ m.aliases[i]? = some ga ∧ s.bind = (convertLinkage ga.1).stb ∧
      s.other = ga.1.visibility.stv

/-- Every alias of an alias is behind it. -/
def Module.Backwards (m : Module) : Prop := ∀ (i j : ℕ) (gv : GlobalValue),
    m.aliases[i]? = some (gv, .globalAlias j) → j < i

/-! ### The symbols of the globals -/

section
variable {st st' st'' : ElfState} {gv : GlobalValue} {x : ℕ}

/-- There is the null symbol, and the symbols that there are stay. -/
structure Kept (st st' : ElfState) : Prop where
  null : st'.localSymbols ≠ []
  syms : ∀ x < 2 ^ 32, ∀ s, st.getSym x = some s → st'.getSym x = some s

theorem Kept.trans (h : Kept st st') (h' : Kept st' st'') : Kept st st'' :=
  ⟨h'.null, fun x hx s hs => h'.syms x hx s (h.syms x hx s hs)⟩

theorem Kept.of_extends (hne : st.localSymbols ≠ []) (h : Extends st st') : Kept st st' :=
  ⟨fun hnil => hne (List.prefix_nil.mp (hnil ▸ h.locals)), fun _ _ _ hs => h.getSym hs⟩

/-- What a declared symbol is: new, not defined, and with a binding and the visibility of its global. -/
structure Fresh (st st' : ElfState) (gv : GlobalValue) (binding : SymBinding) (x : ℕ) : Prop where
  small : x < 2 ^ 32
  new : st.getSym x = none
  sym : ∃ s, st'.getSym x = some s ∧ s.bind = binding.stb ∧ s.other = gv.visibility.stv ∧ s.shndx = shnUndef

theorem addSym_spec {binding : SymBinding} {type : ℕ} (h : addSym st gv binding type = some (st', x))
    (hne : st.localSymbols ≠ []) :
    Kept st st' ∧ Fresh st st' gv binding x := by
  obtain ⟨⟨st₁, y⟩, hadd, h⟩ := Option.bind_eq_some_iff.mp h
  obtain ⟨hsmall, hnew, -, hsym⟩ := symAdd_getSym hadd hne
  have hkept := Kept.of_extends hne (symAdd_extends hadd)
  have hbind : symInfo binding.stb type / 16 = binding.stb := stb_div ..
  dsimp only at h
  split at h
  · rename_i hvis
    obtain ⟨rfl, rfl⟩ := Prod.mk.inj (Option.some.inj h)
    exact ⟨hkept, hsmall, hnew, _, hsym, hbind, by rw [hvis]; rfl, rfl⟩
  · obtain ⟨st₂, hset, h⟩ := Option.bind_eq_some_iff.mp h
    obtain ⟨rfl, rfl⟩ := Prod.mk.inj (Option.some.inj h)
    obtain ⟨s, hs, rfl⟩ := Option.map_eq_some_iff.mp hset
    obtain rfl := Option.some.inj (hs.symm.trans hsym)
    refine ⟨⟨?_, fun z hz s hz' => ?_⟩, hsmall, hnew, _, getSym_setSym_self _ hsym, hbind, rfl, rfl⟩
    · rw [← List.length_pos_iff, setSym_length, List.length_pos_iff]
      exact hkept.null
    · rw [getSym_setSym_of_ne hsmall hz (fun heq => ?_)]
      · exact hkept.syms z hz s hz'
      · rw [heq, hnew] at hz'
        cases hz'

/-- A declaration that gives new symbols with a binding. -/
def Declares (declare : ElfState → GlobalValue → Option (ElfState × Option ℕ))
    (binding : GlobalValue → SymBinding) : Prop :=
  ∀ st st' gv sym, declare st gv = some (st', sym) → st.localSymbols ≠ [] →
    Kept st st' ∧ ∀ x, sym = some x → Fresh st st' gv (binding gv) x

theorem declareFunc_declares : Declares declareFunc funcBinding := by
  intro st st' gv sym h hne
  obtain ⟨⟨st₁, x⟩, hadd, heq⟩ := Option.map_eq_some_iff.mp h
  obtain ⟨rfl, rfl⟩ := Prod.mk.inj heq
  obtain ⟨hkept, hfresh⟩ := addSym_spec hadd hne
  exact ⟨hkept, fun y hy => Option.some.inj hy ▸ hfresh⟩

theorem declareGlobal_declares : Declares declareGlobal convertLinkage := by
  intro st st' gv sym h hne
  rw [declareGlobal] at h
  split at h
  · cases h
  · split at h
    · split at h
      · obtain ⟨rfl, rfl⟩ := Prod.mk.inj (Option.some.inj h)
        exact ⟨⟨hne, fun _ _ _ hs => hs⟩, fun y hy => nomatch hy⟩
      · cases h
    · obtain ⟨⟨st₁, x⟩, hadd, heq⟩ := Option.map_eq_some_iff.mp h
      obtain ⟨rfl, rfl⟩ := Prod.mk.inj heq
      obtain ⟨hkept, hfresh⟩ := addSym_spec hadd hne
      exact ⟨hkept, fun y hy => Option.some.inj hy ▸ hfresh⟩

/-- Symbols of some globals: each is new, and no two are the same. -/
structure AllFresh (st st' : ElfState) (binding : GlobalValue → SymBinding) (gvs : List GlobalValue)
    (syms : List (Option ℕ)) :
    Prop where
  length : syms.length = gvs.length
  fresh : ∀ (i : ℕ) (gv : GlobalValue) (x : ℕ), gvs[i]? = some gv → syms[i]? = some (some x) →
    Fresh st st' gv (binding gv) x
  inj : ∀ i j x : ℕ, syms[i]? = some (some x) → syms[j]? = some (some x) → i = j

theorem declareAll_spec {declare : ElfState → GlobalValue → Option (ElfState × Option ℕ)}
    {binding : GlobalValue → SymBinding}
    (hd : Declares declare binding) {gvs : List GlobalValue} {syms : List (Option ℕ)}
    (h : declareAll declare st gvs = some (st', syms)) (hne : st.localSymbols ≠ []) :
    Kept st st' ∧ AllFresh st st' binding gvs syms := by
  induction gvs generalizing st syms with
  | nil =>
    obtain ⟨rfl, rfl⟩ := Prod.mk.inj (Option.some.inj h)
    exact ⟨⟨hne, fun _ _ _ hs => hs⟩, rfl, by simp, by simp⟩
  | cons gv gvs ih =>
    obtain ⟨⟨st₁, sym⟩, hfirst, h⟩ := Option.bind_eq_some_iff.mp h
    obtain ⟨⟨st₂, syms₂⟩, hrest, h⟩ := Option.bind_eq_some_iff.mp h
    obtain ⟨rfl, rfl⟩ := Prod.mk.inj (Option.some.inj h)
    obtain ⟨hk₁, hf₁⟩ := hd _ _ _ _ hfirst hne
    obtain ⟨hk₂, hf₂⟩ := ih hrest hk₁.null
    -- A symbol of the rest was not there after the first declaration.
    have hdistinct (j x : ℕ) (h0 : sym = some x) (hj : syms₂[j]? = some (some x)) : False := by
      obtain ⟨s, hs, -⟩ := (hf₁ x h0).sym
      have hlt : j < gvs.length := hf₂.length ▸ (List.getElem?_eq_some_iff.mp hj).1
      have hnew := (hf₂.fresh j _ x (List.getElem?_eq_getElem hlt) hj).new
      rw [hs] at hnew
      cases hnew
    refine ⟨hk₁.trans hk₂, by simp [hf₂.length], fun i gv' x hgv hx => ?_, fun i j x hi hj => ?_⟩
    · cases i with
      | zero =>
        obtain rfl : gv = gv' := by simpa using hgv
        have hfresh := hf₁ x (by simpa using hx)
        obtain ⟨s, hs, hrest⟩ := hfresh.sym
        exact ⟨hfresh.small, hfresh.new, s, hk₂.syms x hfresh.small s hs, hrest⟩
      | succ i =>
        have hfresh := hf₂.fresh i gv' x (by simpa using hgv) (by simpa using hx)
        refine ⟨hfresh.small, ?_, hfresh.sym⟩
        cases hold : st.getSym x with
        | none => rfl
        | some s => exact absurd (hk₁.syms x hfresh.small s hold) (by simp [hfresh.new])
    · cases i with
      | zero =>
        cases j with
        | zero => rfl
        | succ j => exact (hdistinct j x (by simpa using hi) (by simpa using hj)).elim
      | succ i =>
        cases j with
        | zero => exact (hdistinct i x (by simpa using hj) (by simpa using hi)).elim
        | succ j => rw [hf₂.inj i j x (by simpa using hi) (by simpa using hj)]

theorem AllFresh.of_get {binding : GlobalValue → SymBinding} {gvs : List GlobalValue} {syms : List (Option ℕ)}
    (h : AllFresh st st' binding gvs syms) {i : ℕ} (hi : syms.getD i none = some x) :
    ∃ gv, gvs[i]? = some gv ∧ syms[i]? = some (some x) ∧ Fresh st st' gv (binding gv) x := by
  rw [List.getD_eq_getElem?_getD, Option.getD_eq_iff] at hi
  have hi : syms[i]? = some (some x) := hi.resolve_right fun hnone => nomatch hnone.2
  have hlt : i < gvs.length := h.length ▸ (List.getElem?_eq_some_iff.mp hi).1
  exact ⟨gvs[i], List.getElem?_eq_getElem hlt, hi, h.fresh i _ x (List.getElem?_eq_getElem hlt) hi⟩

/-- Symbols of one state are not new in a later one. -/
theorem Fresh.ne {gv gv' : GlobalValue} {binding binding' : SymBinding} {st₁ st₂ : ElfState} {y : ℕ}
    (h : Fresh st st₁ gv binding x) (hk : Kept st₁ st₂) (h' : Fresh st₂ st' gv' binding' y) : x ≠ y := by
  rintro rfl
  obtain ⟨s, hs, -⟩ := h.sym
  have hnew := h'.new
  rw [hk.syms x h.small s hs] at hnew
  cases hnew

end

/-- What is known of the symbols of a module: no two globals share one, and those of aliases are not
defined. -/
structure Declared (m : Module) (syms : Syms) (st : ElfState) : Prop where
  inj : ∀ g g' x, syms.globalSym g = some x → syms.globalSym g' = some x → g = g'
  small : ∀ g x, syms.globalSym g = some x → x < 2 ^ 32
  bound : ∀ i x, syms.globalSym (.globalAlias i) = some x → i < m.aliases.length
  own : ∀ (i : ℕ) (ga : GlobalValue × Global) (x : ℕ), m.aliases[i]? = some ga →
    syms.globalSym (.globalAlias i) = some x →
    ∃ s, st.getSym x = some s ∧ s.bind = (convertLinkage ga.1).stb ∧ s.other = ga.1.visibility.stv ∧
      s.shndx = shnUndef

theorem Module.declare_declared {m : Module} {st st' : ElfState} {syms : Syms}
    (h : m.declare st = some (st', syms))
    (hne : st.localSymbols ≠ []) : Declared m syms st' := by
  obtain ⟨⟨st₁, funcs⟩, hfuncs, h⟩ := Option.bind_eq_some_iff.mp h
  obtain ⟨⟨st₂, vars⟩, hvars, h⟩ := Option.bind_eq_some_iff.mp h
  obtain ⟨⟨st₃, aliases⟩, haliases, h⟩ := Option.bind_eq_some_iff.mp h
  obtain ⟨rfl, rfl⟩ := Prod.mk.inj (Option.some.inj h)
  obtain ⟨hk₁, hf₁⟩ := declareAll_spec declareFunc_declares hfuncs hne
  obtain ⟨hk₂, hf₂⟩ := declareAll_spec declareGlobal_declares hvars hk₁.null
  obtain ⟨hk₃, hf₃⟩ := declareAll_spec declareGlobal_declares haliases hk₂.null
  have hrefl (st : ElfState) (hne : st.localSymbols ≠ []) : Kept st st := ⟨hne, fun _ _ _ hs => hs⟩
  refine ⟨fun g g' x hg hg' => ?_, fun g x hg => ?_, fun i x hx => ?_, fun i ga x hga hx => ?_⟩
  · cases g with
    | function i =>
      obtain ⟨gv, -, hi, hfresh⟩ := hf₁.of_get hg
      cases g' with
      | function j =>
        obtain ⟨gv', -, hj, -⟩ := hf₁.of_get hg'
        rw [hf₁.inj i j x hi hj]
      | globalVar j =>
        obtain ⟨gv', -, -, hfresh'⟩ := hf₂.of_get hg'
        exact absurd rfl (hfresh.ne (hrefl _ hk₁.null) hfresh')
      | globalAlias j =>
        obtain ⟨gv', -, -, hfresh'⟩ := hf₃.of_get hg'
        exact absurd rfl (hfresh.ne hk₂ hfresh')
    | globalVar i =>
      obtain ⟨gv, -, hi, hfresh⟩ := hf₂.of_get hg
      cases g' with
      | function j =>
        obtain ⟨gv', -, -, hfresh'⟩ := hf₁.of_get hg'
        exact absurd rfl (hfresh'.ne (hrefl _ hk₁.null) hfresh)
      | globalVar j =>
        obtain ⟨gv', -, hj, -⟩ := hf₂.of_get hg'
        rw [hf₂.inj i j x hi hj]
      | globalAlias j =>
        obtain ⟨gv', -, -, hfresh'⟩ := hf₃.of_get hg'
        exact absurd rfl (hfresh.ne (hrefl _ hk₂.null) hfresh')
    | globalAlias i =>
      obtain ⟨gv, -, hi, hfresh⟩ := hf₃.of_get hg
      cases g' with
      | function j =>
        obtain ⟨gv', -, -, hfresh'⟩ := hf₁.of_get hg'
        exact absurd rfl (hfresh'.ne hk₂ hfresh)
      | globalVar j =>
        obtain ⟨gv', -, -, hfresh'⟩ := hf₂.of_get hg'
        exact absurd rfl (hfresh'.ne (hrefl _ hk₂.null) hfresh)
      | globalAlias j =>
        obtain ⟨gv', -, hj, -⟩ := hf₃.of_get hg'
        rw [hf₃.inj i j x hi hj]
  · cases g with
    | function i =>
      obtain ⟨gv, -, -, hfresh⟩ := hf₁.of_get hg
      exact hfresh.small
    | globalVar i =>
      obtain ⟨gv, -, -, hfresh⟩ := hf₂.of_get hg
      exact hfresh.small
    | globalAlias i =>
      obtain ⟨gv, -, -, hfresh⟩ := hf₃.of_get hg
      exact hfresh.small
  · obtain ⟨gv, hgv, -, -⟩ := hf₃.of_get hx
    have hlt := (List.getElem?_eq_some_iff.mp hgv).1
    rwa [List.length_map] at hlt
  · obtain ⟨gv, hgv, -, hfresh⟩ := hf₃.of_get hx
    rw [List.getElem?_map, hga] at hgv
    obtain rfl := Option.some.inj hgv
    exact hfresh.sym

theorem Syms.mem_ofAliases {syms : Syms} {i x : ℕ} (h : syms.globalSym (.globalAlias i) = some x) :
    x ∈ syms.ofAliases := by
  rw [globalSym, List.getD_eq_getElem?_getD, Option.getD_eq_iff] at h
  have h : syms.aliases[i]? = some (some x) := h.resolve_right fun hnone => nomatch hnone.2
  exact List.mem_filterMap.mpr ⟨some x, List.mem_of_getElem? h, rfl⟩

/-- The calls for the variables and functions keep what is known. -/
theorem Module.compileBase_declared {target : TargetInfo} {m : Module} {body : List AsmOp}
    {st st' : AssemblerElf} {syms : Syms}
    (h : m.compileBase target body st = some (st', syms)) (hst : Inv st.elf) (hbody : ∀ op ∈ body,
      op.Spares syms.ofAliases) :
    Declared m syms st'.elf := by
  obtain ⟨⟨elf, syms₁⟩, hdecl, h⟩ := Option.bind_eq_some_iff.mp h
  obtain ⟨st₁, hrun, h⟩ := Option.bind_eq_some_iff.mp h
  obtain ⟨rfl, rfl⟩ := Prod.mk.inj (Option.some.inj h)
  have hnull : st.elf.localSymbols ≠ [] := by
    intro hnil
    have hnull := hst.shape.null
    rw [hnil] at hnull
    cases hnull
  have hd := declare_declared hdecl hnull
  refine ⟨hd.inj, hd.small, hd.bound, fun i ga x hga hx => ?_⟩
  obtain ⟨s, hs, hrest⟩ := hd.own i ga x hga hx
  exact ⟨s, AssemblerElf.run_getSym hrun hbody (Syms.mem_ofAliases hx) (hd.small _ x hx) hs, hrest⟩

/-! ### The copies -/

section
variable {m : Module} {syms : Syms} {st st' : ElfState}

/-- The aliases from `i` on are not copied yet. -/
def Pending (m : Module) (syms : Syms) (st : ElfState) (i : ℕ) : Prop :=
  ∀ (j : ℕ) (ga : GlobalValue × Global) (x : ℕ), m.aliases[j]? = some ga →
    syms.globalSym (.globalAlias j) = some x →
    ∃ s, st.getSym x = some s ∧ s.bind = (convertLinkage ga.1).stb ∧ s.other = ga.1.visibility.stv ∧
      (i ≤ j → s.shndx = shnUndef)

/-- The aliases before `i` are where the objects are that their chains end in. -/
structure Placed (m : Module) (syms : Syms) (st₀ st : ElfState) (i : ℕ) : Prop where
  objects : ∀ g y p, syms.globalSym g = some y → (∀ j, g ≠ .globalAlias j) → st₀.place y = some p →
    st.place y = some p
  aliases : ∀ j < i, ∀ g y p, m.EndsIn j g → syms.globalSym g = some y → st₀.place y = some p →
    ∃ x, syms.globalSym (.globalAlias j) = some x ∧ st.place x = some p

theorem Module.EndsIn.object_ne {i : ℕ} {g : Global} (h : m.EndsIn i g) : ∀ j, g ≠ .globalAlias j := by
  induction h with
  | object _ hg => exact hg
  | link _ _ ih => exact ih

/-- One copy of an alias that is not copied yet. -/
theorem Pending.copy (hd : Declared m syms st) {st₁ st₂ : ElfState} {i dst src : ℕ} (h : Pending m syms st₁ i)
    (hdst : syms.globalSym (.globalAlias i) = some dst) (hcopy : st₁.symCopy dst src = some st₂) :
      Pending m syms st₂ (i + 1) := by
  obtain ⟨⟨d, s, hd₁, -, hcopied⟩, -, hother⟩ := symCopy_spec hcopy (hd.small _ _ hdst)
  intro j ga x hga hx
  obtain ⟨t, ht, hbind, hvis, hundef⟩ := h j ga x hga hx
  by_cases hij : j = i
  · subst hij
    obtain rfl := Option.some.inj (hdst.symm.trans hx)
    obtain rfl := Option.some.inj (hd₁.symm.trans ht)
    exact ⟨_, hcopied, hbind, hvis, fun hle => absurd hle (by omega)⟩
  · have hne : x ≠ dst := by
      rintro rfl
      exact hij (Global.globalAlias.inj (hd.inj _ _ x hx hdst))
    exact ⟨t, (hother x (hd.small _ x hx) hne).1.trans ht, hbind, hvis, fun hle => hundef (by omega)⟩

/-- One copy: if the aliasee of an alias is not behind it, the alias is where its chain ends. -/
theorem Placed.copy (hd : Declared m syms st) (hb : m.Backwards) {st₀ st₁ st₂ : ElfState}
    {i dst src : ℕ} {ga : GlobalValue × Global}
    (h : Placed m syms st₀ st₁ i) (hga : m.aliases[i]? = some ga)
    (hdst : syms.globalSym (.globalAlias i) = some dst)
    (hsrc : syms.globalSym ga.2 = some src) (hcopy : st₁.symCopy dst src = some st₂) :
      Placed m syms st₀ st₂ (i + 1) := by
  have hsmall := hd.small _ _ hdst
  have hstay {g : Global} {x : ℕ} {p : ℕ × ℕ × ℕ} (hx : syms.globalSym g = some x)
    (hne : g ≠ .globalAlias i) (hp : st₁.place x = some p) :
      st₂.place x = some p := by
    refine symCopy_place_of_ne hcopy hsmall (hd.small g x hx) ?_ hp
    rintro rfl
    exact hne (hd.inj _ _ x hx hdst)
  refine ⟨fun g y p hy hg hp => hstay hy (hg i) (h.objects g y p hy hg hp), fun j hj g y p hends hy hp => ?_⟩
  rcases Nat.lt_succ_iff_lt_or_eq.mp hj with hj | rfl
  · obtain ⟨x, hx, hpx⟩ := h.aliases j hj g y p hends hy hp
    exact ⟨x, hx, hstay hx (fun heq => hj.ne (Global.globalAlias.inj heq)) hpx⟩
  · refine ⟨dst, hdst, (symCopy_place hcopy hsmall).trans ?_⟩
    cases hends with
    | object hobj hg =>
      obtain rfl := Option.some.inj (hga.symm.trans hobj)
      obtain rfl := Option.some.inj (hsrc.symm.trans hy)
      exact h.objects _ _ p hy hg hp
    | @link _ k gv _ halias hends =>
      obtain rfl := Option.some.inj (hga.symm.trans halias)
      obtain ⟨x, hx, hpx⟩ := h.aliases k (hb j k gv halias) g y p hends hy hp
      obtain rfl := Option.some.inj (hsrc.symm.trans hx)
      exact hpx

/-- Copies leave the symbols of other globals. -/
theorem copyAliases_getSym (hd : Declared m syms st) {st₁ : ElfState} {i : ℕ}
    {rest : List (GlobalValue × Global)}
    (h : copyAliases syms st₁ i rest = some st') {g : Global} {x : ℕ} (hx : syms.globalSym g = some x)
    (hg : ∀ j, i ≤ j → g ≠ .globalAlias j) :
    st'.getSym x = st₁.getSym x := by
  induction rest generalizing st₁ i with
  | nil =>
    obtain rfl := Option.some.inj h
    rfl
  | cons ga rest ih =>
    obtain ⟨dst, hdst, h⟩ := Option.bind_eq_some_iff.mp h
    obtain ⟨src, hsrc, h⟩ := Option.bind_eq_some_iff.mp h
    obtain ⟨st₂, hcopy, h⟩ := Option.bind_eq_some_iff.mp h
    have hne : x ≠ dst := by
      rintro rfl
      exact hg i le_rfl (hd.inj _ _ x hx hdst)
    obtain ⟨-, -, hother⟩ := symCopy_spec hcopy (hd.small _ _ hdst)
    rw [ih h fun j hj => hg j (by omega), (hother x (hd.small g x hx) hne).1]

/-- What is true of each copy is true of all of them. -/
theorem copyAliases_induction {P : ElfState → ℕ → Prop}
    (step : ∀ st₁ st₂ i ga dst src, P st₁ i → m.aliases[i]? = some ga →
      syms.globalSym (.globalAlias i) = some dst →
      syms.globalSym ga.2 = some src → st₁.symCopy dst src = some st₂ → P st₂ (i + 1))
    {st₁ : ElfState} {i : ℕ} {rest : List (GlobalValue × Global)} (h : copyAliases syms st₁ i rest = some st')
    (hrest : m.aliases.drop i = rest) (hi : i ≤ m.aliases.length) (h₁ : P st₁ i) :
      P st' m.aliases.length := by
  induction rest generalizing st₁ i with
  | nil =>
    obtain rfl := Option.some.inj h
    have hlen : m.aliases.length ≤ i := List.drop_eq_nil_iff.mp hrest
    rwa [le_antisymm hlen hi]
  | cons ga rest ih =>
    obtain ⟨dst, hdst, h⟩ := Option.bind_eq_some_iff.mp h
    obtain ⟨src, hsrc, h⟩ := Option.bind_eq_some_iff.mp h
    obtain ⟨st₂, hcopy, h⟩ := Option.bind_eq_some_iff.mp h
    have hga : m.aliases[i]? = some ga := by rw [← List.head?_drop, hrest, List.head?_cons]
    have hlt : i < m.aliases.length := (List.getElem?_eq_some_iff.mp hga).1
    have hdrop : m.aliases.drop (i + 1) = rest := by rw [← List.tail_drop, hrest, List.tail_cons]
    exact ih h hdrop hlt (step _ _ _ _ _ _ h₁ hga hdst hsrc hcopy)

/-- An alias of an alias that is not before it is not defined. -/
theorem copyAliases_undef (hd : Declared m syms st) {st₁ : ElfState} {i j k : ℕ}
    {rest : List (GlobalValue × Global)} {gv : GlobalValue}
    (h : copyAliases syms st₁ i rest = some st') (hrest : m.aliases.drop i = rest)
    (hp : Pending m syms st₁ i) (hij : i ≤ j)
    (hj : m.aliases[j]? = some (gv, .globalAlias k)) (hjk : j ≤ k) :
      ∃ x, syms.globalSym (.globalAlias j) = some x ∧ st'.place x = none := by
  induction rest generalizing st₁ i with
  | nil =>
    have hlen : m.aliases.length ≤ i := List.drop_eq_nil_iff.mp hrest
    have hlt : j < m.aliases.length := (List.getElem?_eq_some_iff.mp hj).1
    omega
  | cons ga rest ih =>
    obtain ⟨dst, hdst, h⟩ := Option.bind_eq_some_iff.mp h
    obtain ⟨src, hsrc, h⟩ := Option.bind_eq_some_iff.mp h
    obtain ⟨st₂, hcopy, h⟩ := Option.bind_eq_some_iff.mp h
    have hga : m.aliases[i]? = some ga := by rw [← List.head?_drop, hrest, List.head?_cons]
    have hdrop : m.aliases.drop (i + 1) = rest := by rw [← List.tail_drop, hrest, List.tail_cons]
    rcases hij.lt_or_eq with hlt | rfl
    · exact ih h hdrop (hp.copy hd hdst hcopy) hlt
    · obtain rfl := Option.some.inj (hga.symm.trans hj)
      obtain ⟨⟨d, s, -, hs, hcopied⟩, -, -⟩ := symCopy_spec hcopy (hd.small _ _ hdst)
      have hstay : st'.getSym dst = st₂.getSym dst :=
        copyAliases_getSym hd ‹copyAliases syms st₂ (i + 1) rest = some st'› hdst
        fun j' hj' heq => by
          have := Global.globalAlias.inj heq
          omega
      obtain ⟨t, ht, -, -, hundef⟩ := hp k _ src (List.getElem?_eq_getElem (hd.bound k src hsrc)) hsrc
      obtain rfl := Option.some.inj (hs.symm.trans ht)
      exact ⟨dst, hdst, place_undef (hstay.trans hcopied) (hundef hjk)⟩

end

/-- **What `compile` does to aliases**: all of them are where their chains end, with their own
binding and visibility, if and only if every alias of an alias is behind it in the module. The
calls for variables and functions write to no alias, and define the objects. -/
theorem compile_aliases_iff {target : TargetInfo} {m : Module} {body : List AsmOp}
    {st st₁ st' : AssemblerElf} {syms : Syms}
    (hst : Inv st.elf) (hm : m.Acyclic) (hbase : m.compileBase target body st = some (st₁, syms))
    (hbody : ∀ op ∈ body, op.Spares syms.ofAliases)
    (hdef : ∀ i g, m.EndsIn i g → ∃ y, syms.globalSym g = some y ∧ (st₁.elf.place y).isSome)
    (h : m.compile target body st = some (st', syms)) :
    (∀ i g, m.EndsIn i g → m.Resolved syms st'.elf i g) ↔ m.Backwards := by
  rw [Module.compile, hbase] at h
  obtain ⟨elf, hcopies, h⟩ := Option.bind_eq_some_iff.mp ((Option.bind_some ..).symm.trans h)
  obtain ⟨rfl, -⟩ := Prod.mk.inj (Option.some.inj h)
  have hd := Module.compileBase_declared hbase hst hbody
  have hpending : Pending m syms st₁.elf 0 := fun j ga x hga hx => by
    obtain ⟨s, hs, hbind, hvis, hundef⟩ := hd.own j ga x hga hx
    exact ⟨s, hs, hbind, hvis, fun _ => hundef⟩
  constructor
  · intro hall i j gv hi
    by_contra hle
    have hlt : i < m.aliases.length := (List.getElem?_eq_some_iff.mp hi).1
    obtain ⟨g, hg⟩ := hm i hlt
    obtain ⟨x, y, s, p, ga, hx, hy, -, hpx, -⟩ := hall i g hg
    obtain ⟨x', hx', hnone⟩ :=
      copyAliases_undef hd hcopies List.drop_zero hpending (Nat.zero_le i) hi (not_lt.mp hle)
    obtain rfl := Option.some.inj (hx.symm.trans hx')
    rw [hnone] at hpx
    cases hpx
  · intro hb i g hg
    obtain ⟨y, hy, hplace⟩ := hdef i g hg
    obtain ⟨p, hp⟩ := Option.isSome_iff_exists.mp hplace
    have hplaced₀ : Placed m syms st₁.elf st₁.elf 0 :=
      ⟨fun _ _ _ _ _ hp => hp, fun j hj => absurd hj (Nat.not_lt_zero j)⟩
    have hpend' :=
      copyAliases_induction (fun _ _ _ _ _ _ hpend _ hdst _ hcopy => hpend.copy hd hdst hcopy) hcopies
      List.drop_zero (Nat.zero_le _) hpending
    have hplaced :=
      copyAliases_induction (fun _ _ _ _ _ _ hpl hga hdst hsrc hcopy =>
        hpl.copy hd hb hga hdst hsrc hcopy) hcopies
      List.drop_zero (Nat.zero_le _) hplaced₀
    obtain ⟨ga, hga⟩ : ∃ ga, m.aliases[i]? = some ga := by
      cases hg with
      | object h _ => exact ⟨_, h⟩
      | link h _ => exact ⟨_, h⟩
    obtain ⟨x, hx, hpx⟩ := hplaced.aliases i (List.getElem?_eq_some_iff.mp hga).1 g y p hg hy hp
    obtain ⟨s, hs, hbind, hvis, -⟩ := hpend' i ga x hga hx
    exact ⟨x, y, s, p, ga, hx, hy, hplaced.objects g y p hy hg.object_ne hp, hpx, hs, hga, hbind, hvis⟩

/-! ### Two orders of one chain -/

/-- A function of 16 bytes at the start of the text section. -/
def oneFunc : List AsmOp := [.elf (.symDef (2 ^ 31) 5 0 16)]

/-- The alias `b` of a function `f`, and then the alias `a` of `b`. -/
def aliasBehind : Module := ⟨[{ name := ascii "f" }], [],
  [({ name := ascii "b", weakForLinker := true }, .function 0),
    ({ name := ascii "a", visibility := .hiddenVisibility }, .globalAlias 0)]⟩

/-- The same aliases in the other order. -/
def aliasBefore : Module := ⟨[{ name := ascii "f" }], [],
  [({ name := ascii "a", visibility := .hiddenVisibility }, .globalAlias 1),
    ({ name := ascii "b", weakForLinker := true }, .function 0)]⟩

theorem aliasBefore_endsIn : aliasBefore.EndsIn 0 (.function 0) ∧ aliasBefore.EndsIn 1 (.function 0) := by
  have hb : aliasBefore.EndsIn 1 (.function 0) := .object rfl (by simp)
  exact ⟨.link rfl hb, hb⟩

theorem aliasBehind_acyclic : aliasBehind.Acyclic := by
  have hb : aliasBehind.EndsIn 0 (.function 0) := .object rfl (by simp)
  intro i hi
  match i, hi with
  | 0, _ => exact ⟨_, hb⟩
  | 1, _ => exact ⟨_, .link rfl hb⟩

theorem aliasBehind_object {i : ℕ} {g : Global} (h : aliasBehind.EndsIn i g) : g = .function 0 := by
  induction h with
  | @object i gv g h hg =>
    match i, h with
    | 0, h => exact (Prod.mk.inj (Option.some.inj h)).2.symm
    | 1, h => exact absurd (Prod.mk.inj (Option.some.inj h)).2.symm (hg 0)
  | link _ _ ih => exact ih

theorem aliasBehind_backwards : aliasBehind.Backwards := by
  intro i j gv h
  match i, h with
  | 0, h => exact nomatch (Prod.mk.inj (Option.some.inj h)).2
  | 1, h => exact Global.globalAlias.inj (Prod.mk.inj (Option.some.inj h)).2 ▸ Nat.one_pos

/-- Both aliases of a chain that is declared backwards. -/
theorem aliasBehind_resolved : ∃ st' syms,
    aliasBehind.compile targetInfoA64 oneFunc (AssemblerElf.new targetInfoA64) = some (st', syms) ∧
    ∀ i g, aliasBehind.EndsIn i g → aliasBehind.Resolved syms st'.elf i g := by
  have hrun : (aliasBehind.compileBase targetInfoA64 oneFunc (AssemblerElf.new targetInfoA64)).map
      (fun r => (r.2.ofAliases, r.2.globalSym (.function 0), r.1.elf.place (2 ^ 31))) =
        some ([2 ^ 31 + 1, 2 ^ 31 + 2], some (2 ^ 31), some (5, 0, 16)) := by decide +kernel
  have hcompile : (aliasBehind.compile targetInfoA64 oneFunc (AssemblerElf.new targetInfoA64)).isSome =
    true := by decide +kernel
  obtain ⟨⟨st₁, syms⟩, hbase, hfacts⟩ := Option.map_eq_some_iff.mp hrun
  obtain ⟨haliases, hfacts⟩ := Prod.mk.inj hfacts
  obtain ⟨hfunc, hplace⟩ := Prod.mk.inj hfacts
  obtain ⟨⟨st', syms'⟩, hcompile⟩ := Option.isSome_iff_exists.mp hcompile
  have hsyms : syms' = syms := by
    rw [Module.compile, hbase] at hcompile
    obtain ⟨elf, -, h⟩ := Option.bind_eq_some_iff.mp ((Option.bind_some ..).symm.trans hcompile)
    exact (Prod.mk.inj (Option.some.inj h)).2.symm
  subst hsyms
  refine ⟨st', syms', hcompile,
    (compile_aliases_iff (inv_init targetInfoA64) aliasBehind_acyclic hbase ?_ ?_ hcompile).mpr
    aliasBehind_backwards⟩
  · intro op hop t ht
    obtain rfl := List.mem_singleton.mp hop
    obtain rfl := Option.some.inj ht
    refine ⟨by decide, ?_⟩
    dsimp only at haliases
    rw [haliases]
    decide
  · intro i g hg
    obtain rfl := aliasBehind_object hg
    exact ⟨_, hfunc, by rw [hplace]; rfl⟩

/-- **An alias before its aliasee is not defined**: `a` is the alias of `b`, which is the alias of a
function. -/
theorem aliasBefore_undef : ∃ st' syms,
    aliasBefore.compile targetInfoA64 oneFunc (AssemblerElf.new targetInfoA64) = some (st', syms) ∧
    aliasBefore.Acyclic ∧ aliasBefore.EndsIn 0 (.function 0) ∧
      ¬ aliasBefore.Resolved syms st'.elf 0 (.function 0) := by
  have hrun : (aliasBefore.compile targetInfoA64 oneFunc (AssemblerElf.new targetInfoA64)).map
      (fun r => (r.2.globalSym (.globalAlias 0)).map r.1.elf.place) = some (some none) := by decide +kernel
  obtain ⟨⟨st', syms⟩, hcompile, hplace⟩ := Option.map_eq_some_iff.mp hrun
  obtain ⟨x, hx, hnone⟩ := Option.map_eq_some_iff.mp hplace
  refine ⟨st', syms, hcompile, fun i hi => ?_, aliasBefore_endsIn.1, ?_⟩
  · cases i with
    | zero => exact ⟨_, aliasBefore_endsIn.1⟩
    | succ i =>
      obtain rfl : i = 0 := by
        simp only [aliasBefore, List.length_cons, List.length_nil] at hi
        omega
      exact ⟨_, aliasBefore_endsIn.2⟩
  · rintro ⟨x', y, s, p, ga, hx', -, -, hp, -⟩
    obtain rfl := Option.some.inj (hx.symm.trans hx')
    rw [hnone] at hp
    cases hp

end Tpde.Aliases
