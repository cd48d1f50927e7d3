import Tpde.Library.Mappings
import Tpde.Library.Runs
import Tpde.Mapper.RelocateRun

/-!
# The life of a mapper

An `ElfMapper` over any calls of `map` and `reset`, to its destruction. `reset` decides by the fields
what there is to undo, but `map` does not reset what was mapped before, a new mapper has no value in
`mapped_addr`, and `reset` leaves the offset of the frame, so that a later `map` that fails gives back a
frame that it has not registered. `lifecycle_iff` says which runs are right.
-/

namespace Tpde.Mapper

open Mappings Runs

/-! ### The model -/

/-- The fields of `ElfMapper`; a null address is zero. -/
structure ElfMapper where
  mappedAddr : ℕ
  mappedSize : ℕ
  registeredFrameOff : ℕ := 0
  localSymCount : ℕ := 0
  symAddrs : List (BitVec 64) := []
  deriving DecidableEq

/-- What `map` is called with and what it meets: the page size, the object with its first FDE, the
resolver, the answer to `mmap`, and whether all calls of `mprotect` succeed. -/
structure MapCall where
  arch : Arch
  pageSize : ℕ
  obj : Object
  ehFirstFdeOff : ℕ
  resolver : List UInt8 → BitVec 64
  mmapAnswer : Option ℕ
  mprotectOk : Bool

namespace Object

/-- A global symbol that is defined, which `map` resolves first. -/
def definedGlobal (obj : Object) (idx : ℕ) : Bool :=
  obj.localSymbols.length ≤ idx ∧ (obj.symbol idx).shndx ≠ shnUndef ∧
    ((obj.symbol idx).shndx < shnLoreserve ∨ (obj.symbol idx).shndx = shnXindex)

/-- A symbol that a relocation of the image refers to. -/
def relocated (obj : Object) (pageSize idx : ℕ) : Bool :=
  (obj.placed pageSize).any fun p => ((obj.getSection p.ref).elim [] ObjSection.relocs).any fun r =>
    obj.symIdx r.symbol = idx

end Object

/-- The offset of the first FDE in the mapping, as a 32-bit number. -/
def MapCall.frameOff (call : MapCall) : ℕ :=
  (call.obj.secAddr call.pageSize call.obj.ehFrame + call.ehFirstFdeOff) % 2 ^ 32

namespace ElfMapper

variable (m : ElfMapper)

/-- `reset`, with what it asks of the system. -/
def reset : ElfMapper × List Event :=
  if m.mappedAddr = 0 then (m, [])
  else ({ m with mappedAddr := 0, symAddrs := [] },
    (if m.registeredFrameOff ≠ 0 then [.deregisterFrame (m.mappedAddr + m.registeredFrameOff)] else []) ++
      [.munmap m.mappedAddr m.mappedSize])

/-- `sym_addr`: an address that was resolved before, or that of the symbol. -/
def symAddr (call : MapCall) (addr idx : ℕ) : BitVec 64 × Bool :=
  if m.symAddrs.getD idx 0 ≠ 0 then (m.symAddrs.getD idx 0, true)
    else call.obj.symAddrs call.pageSize call.resolver addr idx

/-- The addresses of symbols after the relocations. -/
def resolved (call : MapCall) (addr : ℕ) : List (BitVec 64) :=
  (List.range call.obj.symCount).map fun idx =>
    if call.obj.definedGlobal idx || call.obj.relocated call.pageSize idx then
      (m.symAddr call addr idx).1
    else m.symAddrs.getD idx 0

/-- Whether the relocations and the calls of `mprotect` succeed, for a mapping at `addr`. -/
def succeeds (call : MapCall) (addr : ℕ) : Bool :=
  (relocate call.arch call.obj (m.symAddr call addr) (.init addr)
    (call.obj.tasks call.pageSize addr)).success && call.mprotectOk

/-- `map`, for the address of the mapping. -/
def map (call : MapCall) (mmapRes : Option ℕ) : ElfMapper × List Event × Bool :=
  let mappedSize := call.obj.mappedSize call.pageSize
  match mmapRes with
  | none => ({ m with mappedSize, mappedAddr := 0 }, [], false)
  | some addr =>
    let mapped := { m with
      mappedSize, mappedAddr := addr, localSymCount := call.obj.localSymbols.length, symAddrs :=
        m.resolved call addr }
    if m.succeeds call addr then
      ({ mapped with
        registeredFrameOff := call.frameOff },
          [.mmap addr mappedSize, .registerFrame (addr + call.frameOff)], true)
    else (mapped.reset.1, .mmap addr mappedSize :: mapped.reset.2, false)

/-- With no addresses from before, it is `map` of the relocations that succeeds. -/
theorem succeeds_eq {call : MapCall} {addr : ℕ} (h : m.symAddrs = []) :
    m.succeeds call addr =
      (Mapper.map call.arch call.pageSize call.obj call.resolver (some addr) call.mprotectOk).isSome := by
  have hsym : m.symAddr call addr = call.obj.symAddrs call.pageSize call.resolver addr := by
    funext idx
    rw [symAddr, h]
    exact if_neg (not_not.mpr rfl)
  rw [succeeds, hsym, Mapper.map, Option.bind_some]
  dsimp only
  split
  case isTrue hok => exact hok
  case isFalse hok => exact Bool.eq_false_iff.mpr hok

/-- The fields that are read before they are written: `mapped_size` and `local_sym_count` are of no use
without a mapping. -/
def visible : ℕ × ℕ × List (BitVec 64) := (m.mappedAddr, m.registeredFrameOff, m.symAddrs)

end ElfMapper

/-! ### Runs -/

/-- A mapper and the system. -/
structure World where
  mapper : ElfMapper
  os : System := {}

/-- The operations. The destructor is a `reset`. -/
inductive Op where
  | map (call : MapCall)
  | reset

namespace World

variable (w : World)

/-- The address of a new mapping. -/
def answer (call : MapCall) : Option ℕ := w.os.mmapAnswer (call.obj.mappedSize call.pageSize) call.mmapAnswer

/-- What an operation does: the fields, the events and the result. -/
def exec : Op → ElfMapper × List Event × Bool
  | .map call => w.mapper.map call (w.answer call)
  | .reset => (w.mapper.reset.1, w.mapper.reset.2, true)

def next (op : Op) : World where
  mapper := (w.exec op).1
  os := w.os.applyAll (w.exec op).2.1

def step (op : Op) : Option World := some (w.next op)

/-- A new mapper, whose address and size have no values yet. -/
def init (mappedAddr mappedSize : ℕ) : World := { mapper := { mappedAddr, mappedSize } }

end World

/-- A run is right if it gives back what there is, no frame's memory before the frame, and leaves
nothing; and a `map` that fails leaves the mapper as a `reset` would. -/
structure Correct (w : World) (ops : List Op) : Prop where
  legal : ∀ t ∈ steps World.step w ops, t.before.os.AllLegal (t.before.exec t.op).2.1
  failed : ∀ t ∈ steps World.step w ops, (t.before.exec t.op).2.2 = false →
    t.after.mapper.visible = t.before.mapper.reset.1.visible
  settled : (ops.foldl World.next w).os = {}

/-- The condition on an operation. -/
def Meets (t : Step World Op) : Prop :=
  match t.op with
  | .reset => t.before.mapper.mappedAddr = 0 ∨
    (t.before.mapper.mappedAddr, t.before.mapper.mappedSize) ∈ t.before.os.maps
  | .map call => t.before.os.maps = [] ∧ ∀ addr, t.before.answer call = some addr →
      if t.before.mapper.succeeds call addr then call.frameOff ≠ 0 else t.before.mapper.registeredFrameOff = 0

/-! ### What is kept -/

namespace World

variable {w : World} {call : MapCall} {addr : ℕ}

/-- Nothing is mapped, or one mapping that the fields tell, with its frame. -/
inductive Inv (w : World) : Prop
  | idle (hos : w.os = {}) (hsyms : w.mapper.symAddrs = [])
  | mapped
    (hos : w.os =
      { maps := [(w.mapper.mappedAddr, w.mapper.mappedSize)]
        frames := [w.mapper.mappedAddr + w.mapper.registeredFrameOff] })
    (haddr : w.mapper.mappedAddr ≠ 0) (hsize : 0 < w.mapper.mappedSize)
    (hoff : w.mapper.registeredFrameOff ≠ 0)

/-- A mapping is lost, or a frame that will not be given back. -/
inductive Doomed (w : World) : Prop
  | lost (r : ℕ × ℕ) (hr : r ∈ w.os.maps) (hpos : r.1 ≠ 0) (hsize : 0 < r.2) (hne : r.1 ≠ w.mapper.mappedAddr)
  | framed (hmap : (w.mapper.mappedAddr, w.mapper.mappedSize) ∈ w.os.maps) (haddr : w.mapper.mappedAddr ≠ 0)
    (hsize : 0 < w.mapper.mappedSize) (hoff : w.mapper.registeredFrameOff = 0)
    (hframe : w.mapper.mappedAddr ∈ w.os.frames)

theorem exec_map_none (h : w.answer call = none) :
    w.exec (.map call) = ({ w.mapper with
      mappedSize := call.obj.mappedSize call.pageSize, mappedAddr := 0 }, [], false) := by
  rw [exec, h, ElfMapper.map]

theorem exec_map_success (h : w.answer call = some addr) (hok : w.mapper.succeeds call addr = true) :
    w.exec (.map call) =
      ({ mappedAddr := addr, mappedSize := call.obj.mappedSize call.pageSize
         registeredFrameOff := call.frameOff
         localSymCount := call.obj.localSymbols.length, symAddrs := w.mapper.resolved call addr },
       [.mmap addr (call.obj.mappedSize call.pageSize), .registerFrame (addr + call.frameOff)], true) := by
  rw [exec, h, ElfMapper.map]
  exact if_pos hok

theorem exec_map_failure (h : w.answer call = some addr) (hok : w.mapper.succeeds call addr = false)
    (haddr : addr ≠ 0) :
    w.exec (.map call) =
      ({ mappedAddr := 0, mappedSize := call.obj.mappedSize call.pageSize
         registeredFrameOff := w.mapper.registeredFrameOff
         localSymCount := call.obj.localSymbols.length, symAddrs := [] },
       .mmap addr (call.obj.mappedSize call.pageSize) ::
         ((if w.mapper.registeredFrameOff ≠ 0 then
           [.deregisterFrame (addr + w.mapper.registeredFrameOff)] else []) ++
           [.munmap addr (call.obj.mappedSize call.pageSize)]), false) := by
  rw [exec, h, ElfMapper.map]
  dsimp only
  rw [if_neg (Bool.eq_false_iff.mp hok), ElfMapper.reset, if_neg haddr]

theorem exec_reset_null (h : w.mapper.mappedAddr = 0) : w.exec .reset = (w.mapper, [], true) := by
  rw [exec, ElfMapper.reset, if_pos h]

theorem exec_reset (h : w.mapper.mappedAddr ≠ 0) :
    w.exec .reset = ({ w.mapper with mappedAddr := 0, symAddrs := [] },
      (if w.mapper.registeredFrameOff ≠ 0 then
        [.deregisterFrame (w.mapper.mappedAddr + w.mapper.registeredFrameOff)] else []) ++
        [.munmap w.mapper.mappedAddr w.mapper.mappedSize], true) := by
  rw [exec, ElfMapper.reset, if_neg h]

theorem free_of_answer (h : w.answer call = some addr) : w.os.Free addr (call.obj.mappedSize call.pageSize) :=
  System.free_of_mmapAnswer h

/-! ### Right steps -/

theorem visible_reset (h : w.mapper.symAddrs = []) :
    w.mapper.reset.1.visible = (0, w.mapper.registeredFrameOff, []) := by
  rw [ElfMapper.reset]
  split
  case isTrue hzero => rw [ElfMapper.visible, hzero, h]
  case isFalse => rfl

/-- **An operation that meets its condition** does only what is legal and keeps the invariant. -/
theorem Inv.next {op : Op} (h : w.Inv) (hmeets : Meets ⟨w, op, w.next op⟩) :
    w.os.AllLegal (w.exec op).2.1 ∧
      ((w.exec op).2.2 = false → (w.next op).mapper.visible = w.mapper.reset.1.visible) ∧
      (w.next op).Inv := by
  cases op with
  | reset =>
    by_cases hzero : w.mapper.mappedAddr = 0
    · have hnext : w.next .reset = w := by rw [World.next, exec_reset_null hzero]; rfl
      rw [hnext, exec_reset_null hzero]
      exact ⟨trivial, nofun, h⟩
    · have hlive : (w.mapper.mappedAddr, w.mapper.mappedSize) ∈ w.os.maps := hmeets.resolve_left hzero
      cases h with
      | idle hos hsyms =>
        rw [hos] at hlive
        cases hlive
      | mapped hos haddr hsize hoff =>
        rw [World.next, exec_reset hzero, if_pos hoff, hos]
        refine ⟨⟨List.mem_singleton_self _, ⟨List.mem_singleton_self _, ?_⟩, trivial⟩, nofun, .idle ?_ rfl⟩
        · simp [System.apply]
        · simp [System.applyAll, System.apply]
  | map call =>
    obtain ⟨hmaps, hcall⟩ := hmeets
    dsimp only at hmaps hcall
    cases h with
    | mapped hos haddr hsize hoff =>
      rw [hos] at hmaps
      cases hmaps
    | idle hos hsyms =>
      cases hanswer : w.answer call with
      | none =>
        rw [World.next, exec_map_none hanswer, visible_reset hsyms]
        refine ⟨trivial, fun _ => ?_, .idle hos hsyms⟩
        rw [ElfMapper.visible, hsyms]
      | some addr =>
        have haddr : addr ≠ 0 := (free_of_answer hanswer).1.ne'
        have hcall := hcall addr hanswer
        cases hok : w.mapper.succeeds call addr with
        | true =>
          rw [if_pos hok] at hcall
          rw [World.next, exec_map_success hanswer hok, hos]
          exact ⟨⟨trivial, trivial, trivial⟩, nofun, .mapped rfl haddr (free_of_answer hanswer).2.1 hcall⟩
        | false =>
          rw [if_neg (Bool.eq_false_iff.mp hok)] at hcall
          rw [World.next, exec_map_failure hanswer hok haddr, hos, if_neg (not_not.mpr hcall),
            visible_reset hsyms]
          refine ⟨⟨trivial, ⟨List.mem_singleton_self _, fun _ hf => nomatch hf⟩, trivial⟩, fun _ => rfl,
            .idle ?_ rfl⟩
          simp [System.applyAll, System.apply]

/-! ### Wrong steps -/

/-- A mapping is lost when `map` is called over it. -/
theorem doomed_map {r : ℕ × ℕ} (hr : r ∈ w.os.maps) (hpos : r.1 ≠ 0) (hsize : 0 < r.2) (call : MapCall) :
    (w.next (.map call)).Doomed := by
  cases hanswer : w.answer call with
  | none =>
    rw [World.next, exec_map_none hanswer]
    exact .lost r hr hpos hsize hpos
  | some addr =>
    have hfree := free_of_answer hanswer
    have hne : r.1 ≠ addr := hfree.ne hr hsize
    cases hok : w.mapper.succeeds call addr with
    | true =>
      rw [World.next, exec_map_success hanswer hok]
      exact .lost r (List.mem_cons_of_mem _ hr) hpos hsize hne
    | false =>
      rw [World.next, exec_map_failure hanswer hok hfree.1.ne']
      refine .lost r (System.mem_maps_applyAll hr fun a n hmem => ?_) hpos hsize hpos
      split at hmem
      · simp at hmem
        exact hmem.1 ▸ hne
      · simp at hmem
        exact hmem.1 ▸ hne

/-- What is lost stays lost, as long as nothing illegal is done. -/
theorem Doomed.next {op : Op} (h : w.Doomed) (hlegal : w.os.AllLegal (w.exec op).2.1) :
    (w.next op).Doomed := by
  cases op with
  | map call =>
    cases h with
    | lost r hr hpos hsize hne => exact doomed_map hr hpos hsize call
    | framed hmap haddr hsize hoff hframe => exact doomed_map hmap haddr hsize call
  | reset =>
    by_cases hzero : w.mapper.mappedAddr = 0
    · have hnext : w.next .reset = w := by rw [World.next, exec_reset_null hzero]; rfl
      rw [hnext]
      exact h
    · cases h with
      | lost r hr hpos hsize hne =>
        rw [World.next, exec_reset hzero]
        refine .lost r (System.mem_maps_applyAll hr fun a n hmem => ?_) hpos hsize hpos
        split at hmem
        · simp at hmem
          exact hmem.1 ▸ hne
        · simp at hmem
          exact hmem.1 ▸ hne
      | framed hmap haddr hsize hoff hframe =>
        rw [exec_reset hzero, if_neg (not_not.mpr hoff)] at hlegal
        exact absurd ⟨le_rfl, Nat.lt_add_of_pos_right hsize⟩ (hlegal.1.2 _ hframe)

theorem Doomed.os_ne (h : w.Doomed) : w.os ≠ {} := by
  intro hos
  cases h with
  | lost r hr =>
    rw [hos] at hr
    cases hr
  | framed hmap =>
    rw [hos] at hmap
    cases hmap

/-- **An operation that does not meet its condition** does something illegal or loses a mapping. -/
theorem Inv.doomed {op : Op} (h : w.Inv) (hmeets : ¬ Meets ⟨w, op, w.next op⟩)
    (hlegal : w.os.AllLegal (w.exec op).2.1) :
    (w.next op).Doomed := by
  cases op with
  | reset =>
    rw [Meets, not_or] at hmeets
    obtain ⟨hne, hdead⟩ := hmeets
    dsimp only at hne hdead
    rw [exec_reset hne, System.allLegal_append] at hlegal
    refine absurd ?_ hdead
    have hmem := hlegal.2.1.1
    split at hmem
    · exact hmem
    · exact hmem
  | map call =>
    cases h with
    | mapped hos haddr hsize hoff =>
      exact doomed_map (by rw [hos]; exact List.mem_singleton_self _) haddr hsize call
    | idle hos hsyms =>
      rw [Meets, not_and] at hmeets
      have hmeets := hmeets (by rw [hos])
      rw [not_forall] at hmeets
      obtain ⟨addr, hmeets⟩ := hmeets
      rw [Classical.not_imp] at hmeets
      obtain ⟨hanswer, hcall⟩ := hmeets
      dsimp only at hanswer hcall
      have hfree := free_of_answer hanswer
      cases hok : w.mapper.succeeds call addr with
      | true =>
        -- The offset of the frame is zero, so that it looks like none.
        rw [if_pos hok, not_not] at hcall
        rw [World.next, exec_map_success hanswer hok, hos, hcall]
        exact .framed List.mem_cons_self hfree.1.ne' hfree.2.1 rfl List.mem_cons_self
      | false =>
        -- The offset is that of an earlier mapping.
        rw [if_neg (Bool.eq_false_iff.mp hok)] at hcall
        rw [exec_map_failure hanswer hok hfree.1.ne', if_pos hcall, hos] at hlegal
        exact nomatch hlegal.2.1

/-! ### Whole runs -/

theorem steps_cons (w : World) (op : Op) (ops : List Op) :
    steps World.step w (op :: ops) = ⟨w, op, w.next op⟩ :: steps World.step (w.next op) ops :=
      steps_of_some rfl

theorem correct_nil : Correct w [] ↔ w.os = {} := ⟨Correct.settled, fun h => ⟨nofun, nofun, h⟩⟩

theorem correct_cons {op : Op} {ops : List Op} : Correct w (op :: ops) ↔
    w.os.AllLegal (w.exec op).2.1 ∧
      ((w.exec op).2.2 = false → (w.next op).mapper.visible = w.mapper.reset.1.visible) ∧
      Correct (w.next op) ops := by
  constructor
  · rintro ⟨hlegal, hfailed, hsettled⟩
    rw [steps_cons] at hlegal hfailed
    obtain ⟨hlegal, hlegals⟩ := List.forall_mem_cons.mp hlegal
    obtain ⟨hfailed, hfaileds⟩ := List.forall_mem_cons.mp hfailed
    exact ⟨hlegal, hfailed, hlegals, hfaileds, hsettled⟩
  · rintro ⟨hlegal, hfailed, hlegals, hfaileds, hsettled⟩
    refine ⟨?_, ?_, hsettled⟩
    · rw [steps_cons]
      exact List.forall_mem_cons.mpr ⟨hlegal, hlegals⟩
    · rw [steps_cons]
      exact List.forall_mem_cons.mpr ⟨hfailed, hfaileds⟩

theorem mappedAddr_reset (w : World) : (w.next .reset).mapper.mappedAddr = 0 := by
  by_cases hzero : w.mapper.mappedAddr = 0
  · rw [World.next, exec_reset_null hzero]
    exact hzero
  · rw [World.next, exec_reset hzero]

/-- With nothing mapped by the fields, nothing is mapped. -/
theorem Inv.os_eq (h : w.Inv) (hzero : w.mapper.mappedAddr = 0) : w.os = {} := by
  cases h with
  | idle hos _ => exact hos
  | mapped _ haddr => exact absurd hzero haddr

/-- A run that has lost something is not right. -/
theorem Doomed.not_correct {ops : List Op} (h : w.Doomed) : ¬ Correct w (ops ++ [.reset]) := by
  intro hcorrect
  induction ops generalizing w with
  | nil =>
    obtain ⟨hlegal, -, hdone⟩ := correct_cons.mp hcorrect
    exact (h.next hlegal).os_ne (correct_nil.mp hdone)
  | cons op ops ih =>
    obtain ⟨hlegal, -, hrest⟩ := correct_cons.mp hcorrect
    exact ih (h.next hlegal) hrest

/-- **From the invariant on, a run is right exactly if all its operations meet their conditions.** -/
theorem Inv.correct_iff {ops : List Op} (h : w.Inv) :
    Correct w (ops ++ [.reset]) ↔ ∀ t ∈ steps World.step w (ops ++ [.reset]), Meets t := by
  induction ops generalizing w with
  | nil =>
    rw [List.nil_append, steps_cons, List.forall_mem_cons, correct_cons, correct_nil]
    constructor
    · rintro ⟨hlegal, -, hdone⟩
      exact ⟨by_contra fun hmeets => (h.doomed hmeets hlegal).os_ne hdone, nofun⟩
    · rintro ⟨hmeets, -⟩
      obtain ⟨hlegal, hfailed, hinv⟩ := h.next hmeets
      exact ⟨hlegal, hfailed, hinv.os_eq (mappedAddr_reset w)⟩
  | cons op ops ih =>
    rw [List.cons_append, steps_cons, List.forall_mem_cons, correct_cons]
    constructor
    · rintro ⟨hlegal, -, hrest⟩
      have hmeets : Meets ⟨w, op, w.next op⟩ :=
        by_contra fun hmeets => (h.doomed hmeets hlegal).not_correct hrest
      exact ⟨hmeets, (ih (h.next hmeets).2.2).mp hrest⟩
    · rintro ⟨hmeets, hrest⟩
      obtain ⟨hlegal, hfailed, hinv⟩ := h.next hmeets
      exact ⟨hlegal, hfailed, (ih hinv).mpr hrest⟩

end World

/-- **A run to the destruction of the mapper is right exactly if** no `reset` is made before the first
`map` (unless the address happens to be null), each `map` is made with nothing mapped, those that fail
after `mmap` come before any that succeeds, and those that succeed have a frame whose offset is not
zero. -/
theorem lifecycle_iff (mappedAddr mappedSize : ℕ) (ops : List Op) :
    Correct (World.init mappedAddr mappedSize) (ops ++ [.reset]) ↔
      ∀ t ∈ steps World.step (World.init mappedAddr mappedSize) (ops ++ [.reset]), Meets t :=
  World.Inv.correct_iff (.idle rfl rfl)

/-- An object with unwind information only. -/
def ehObject : Object where
  sections :=
    [some
      { flags := 2, nobits := false, align := 8, size := 32, data := List.replicate 32 0, relocs := [],
        size_eq := fun _ => rfl }]
  ehFrame := 0
  localSymbols := []
  globalSymbols := []

/-- It is mapped at 64 KiB, where `mprotect` succeeds or not. -/
def ehCall (mprotectOk : Bool) : MapCall where
  arch := .x86_64
  pageSize := 4096
  obj := ehObject
  ehFirstFdeOff := 24
  resolver _ := 0
  mmapAnswer := some 0x10000
  mprotectOk

theorem ehObject_image : image 4096 0 0 (ehObject.sections.map (Option.map ObjSection.toSection)) =
    ([⟨0, ⟨2, false, 8, 32⟩, 0, 36⟩], [(0, 2), (36, 0)], 36) := by
  have hsecs : allocSections (ehObject.sections.map (Option.map ObjSection.toSection)) =
    [(0, ⟨2, false, 8, 32⟩)] :=
    List.mergeSort_singleton _
  rw [image, hsecs]
  rfl

theorem ehObject_mappedSize : ehObject.mappedSize 4096 = 36 := by
  erw [Object.mappedSize, ehObject_image]

theorem ehObject_succeeds {m : ElfMapper} {mprotectOk : Bool} :
    m.succeeds (ehCall mprotectOk) 0x10000 = mprotectOk := by
  rw [ElfMapper.succeeds, Object.tasks, Object.placed]
  erw [ehObject_image]
  rfl

theorem ehCall_frameOff {mprotectOk : Bool} : (ehCall mprotectOk).frameOff = 24 := by
  rw [MapCall.frameOff, Object.secAddr, Object.placed]
  erw [ehObject_image]
  rfl

theorem ehCall_answer {w : World} (h : w.os = {}) {mprotectOk : Bool} :
    w.answer (ehCall mprotectOk) = some 0x10000 := by
  rw [World.answer, h]
  erw [ehObject_mappedSize]
  rfl

/-- A mapping that succeeds, a `reset`, and a mapping that fails: the frame is given back a second time. -/
theorem staleFrame :
    ¬ Correct (World.init 0 0) ([.map (ehCall true), .reset, .map (ehCall false)] ++ [.reset]) := by
  intro h
  obtain ⟨-, -, h⟩ := World.correct_cons.mp h
  obtain ⟨-, -, h⟩ := World.correct_cons.mp h
  obtain ⟨hlegal, -, -⟩ := World.correct_cons.mp h
  have hmap : ∃ syms, (World.init 0 0).next (.map (ehCall true)) =
      { mapper := ⟨0x10000, 36, 24, 0, syms⟩, os := { maps := [(0x10000, 36)], frames := [0x10018] } } := by
    refine ⟨(World.init 0 0).mapper.resolved (ehCall true) 0x10000, ?_⟩
    rw [World.next, World.exec_map_success (ehCall_answer rfl) ehObject_succeeds, ehCall_frameOff,
      show (ehCall true).obj.mappedSize (ehCall true).pageSize = 36 from ehObject_mappedSize]
    rfl
  obtain ⟨syms, hmap⟩ := hmap
  have hreset :
    World.next
    { mapper := ⟨0x10000, 36, 24, 0, syms⟩, os := { maps := [(0x10000, 36)], frames := [0x10018] } } .reset =
      { mapper := ⟨0, 36, 24, 0, []⟩ } := by
    rw [World.next, World.exec_reset (Nat.succ_ne_zero _)]
    rfl
  rw [hmap, hreset, World.exec_map_failure (ehCall_answer rfl) ehObject_succeeds (by decide)] at hlegal
  exact nomatch hlegal.2.1

end Tpde.Mapper
