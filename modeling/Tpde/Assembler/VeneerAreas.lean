import Tpde.Assembler.FixupsA64

/-!
# Where areas for veneers are left

`more_space` leaves an area for veneers where the buffer is full, if a conditional branch behind the
last area may not reach the end of what is allocated then. So the places of the areas are known from
the calls alone, without the text: by the sizes that are asked for, the counts of the branches and
the growth of the buffer (`Budget`). With them it is known which function `handle_fixups` resolves
(`handleFixups_iff`).
-/

namespace Tpde.Assembler

open Branches

/-! ### Budgets -/

/-- What a call does to the space of a function. -/
inductive Event where
  /-- Room is asked for. -/
  | ask (size : ℕ)
  /-- Text is written. -/
  | skip (size : ℕ)
  /-- The text is aligned. -/
  | align (a : ℕ)
  /-- A branch to a label is written. -/
  | branch (kind : FixupKind) (label : ℕ)
  /-- A label is placed. -/
  | place (label : ℕ)
  /-- The offset is kept, as that of a return. -/
  | mark
  deriving DecidableEq

/-- How far a function is written and how much is allocated for it, where its last area is, and how many
branches are behind that. -/
structure Budget where
  offset : ℕ
  allocated : ℕ
  capacity : ℕ
  growth : ℕ
  last : ℕ
  condBrs : ℕ
  testBrs : ℕ

namespace Budget

/-- The bytes of veneers for the branches behind the last area. -/
def pending (b : Budget) : ℕ := 4 * (b.testBrs + b.condBrs)

/-- More is allocated: what is left of the capacity, or at least the current growth. The size is counted in
32 bits. -/
def refill (b : Budget) (size : ℕ) : Budget :=
  let size := (size + b.pending + 4) % 2 ^ 32
  if b.allocated + size ≤ b.capacity then { b with allocated := b.capacity }
  else { b with
    allocated := b.allocated + max b.growth size
    capacity := FunctionWriterA64.reserve b.capacity (b.allocated + max b.growth size)
    growth := min (b.growth + b.growth / 2) 0x1000000 }

/-- The distance that every branch behind the last area can go, with its veneer, in 32 bits. -/
def reach (b : Budget) : ℕ :=
  ((if b.testBrs = 0 then 2 ^ 20 else 2 ^ 15) + 2 ^ 32 - b.pending % 2 ^ 32) % 2 ^ 32

/-- A branch behind the last area may not reach the end of what is allocated. -/
def Short (b : Budget) : Prop := b.pending ≠ 0 ∧ (b.last + b.reach) % 2 ^ 32 ≤ b.allocated

instance (b : Budget) : Decidable b.Short := inferInstanceAs (Decidable (_ ∧ _))

/-- The buffer is too full for `size` bytes, and an area is left. -/
def Leaves (b : Budget) (size : ℕ) : Prop := b.allocated - b.offset < size ∧ (b.refill size).Short

instance (b : Budget) (size : ℕ) : Decidable (b.Leaves size) := inferInstanceAs (Decidable (_ ∧ _))

/-- An area behind the branch over it. -/
def leave (b : Budget) : Budget :=
  { b with offset := b.offset + 4 + b.pending, last := b.offset + 4, condBrs := 0, testBrs := 0 }

/-- What an event does. -/
def step (b : Budget) : Event → Budget
  | .ask size =>
    if b.Leaves size then (b.refill size).leave
    else if b.allocated - b.offset < size then b.refill size
    else b
  | .skip size => { b with offset := b.offset + size }
  | .align a => { b with offset := (b.offset + a - 1) / a * a }
  | .branch kind _ => { b with
      offset := b.offset + 4
      condBrs := b.condBrs + if kind = .condBr then 1 else 0
      testBrs := b.testBrs + if kind = .testBr then 1 else 0 }
  | .place _ | .mark => b

/-- What there is of something in a run of events. -/
def collect {α : Type} (what : Budget → Event → List α) : Budget → List Event → List α
  | _, [] => []
  | b, e :: es => what b e ++ collect what (b.step e) es

theorem collect_append {α : Type} (what : Budget → Event → List α) (b : Budget) (es es' : List Event) :
    collect what b (es ++ es') = collect what b es ++ collect what (es.foldl step b) es' := by
  induction es generalizing b with
  | nil => rfl
  | cons e es ih => rw [List.cons_append, collect, collect, ih, List.append_assoc, List.foldl_cons]

/-- The first veneer of the area that an event leaves. -/
def area (b : Budget) : Event → List ℕ
  | .ask size => if b.Leaves size then [b.offset + 4] else []
  | _ => []

/-- The branch of an event. -/
def fixup (b : Budget) : Event → List LabelFixup
  | .branch kind label => [⟨label, b.offset, kind⟩]
  | _ => []

/-- The label of an event, and where it is placed. -/
def placed (b : Budget) : Event → List (ℕ × ℕ)
  | .place label => [(label, b.offset)]
  | _ => []

/-- The offset that is kept. -/
def marked (b : Budget) : Event → List ℕ
  | .mark => [b.offset]
  | _ => []

end Budget

/-! ### Plans -/

/-- The areas, the branches, the labels and the returns of a function. -/
structure Plan where
  areas : List ℕ
  branches : List LabelFixup
  labels : List (ℕ × ℕ)
  returns : List ℕ

/-- The plan of a run of events. -/
def Budget.plan (b : Budget) (es : List Event) : Plan :=
  ⟨b.collect Budget.area es, b.collect Budget.fixup es, b.collect Budget.placed es,
    b.collect Budget.marked es⟩

namespace Plan

/-- Where the label of a branch is. -/
def target (p : Plan) (f : LabelFixup) : Option ℕ := p.labels.lookup f.label

/-- The first area behind a branch. -/
def areaOf (p : Plan) (f : LabelFixup) : Option ℕ := p.areas.find? (f.off < ·)

/-- A conditional branch that does not reach its label. -/
def IsFar (p : Plan) (f : LabelFixup) : Bool := f.kind.isCond && (p.target f).any fun labelOff =>
    f.off + f.kind.reach ≤ labelOff

/-- How many of some branches need a slot of an area. -/
def farIn (p : Plan) (v : ℕ) (fs : List LabelFixup) : ℕ :=
  (fs.filter fun f => p.IsFar f && p.areaOf f == some v).length

/-- There is an area behind a branch, the slot behind those of the branches before it is in reach, and
the branch is not just behind an area that has no slot left. -/
def Served (p : Plan) (f : LabelFixup) : Prop :=
  (∃ v, p.areaOf f = some v ∧ v + 4 * p.farIn v (p.branches.filter (·.off < f.off)) < f.off + f.kind.reach) ∧
    ∀ v ∈ p.areas, v + 4 * p.farIn v p.branches ≠ f.off

end Plan

namespace FunctionWriterA64

variable {Op : Type}

/-! ### The writer follows its budget -/

/-- The budget of a writer. -/
def budget (w : FunctionWriterA64 Op) : Budget :=
  ⟨w.offset, w.allocatedSize, w.capacity, w.growthSize, w.firstCondbr, w.unresolvedCondBrs,
    w.unresolvedTestBrs⟩

/-- Where a label is placed. -/
def labelAt (w : FunctionWriterA64 Op) (label : ℕ) : Option ℕ := (w.labelOffsets[label]?).join

/-- From `w` to `w'` there are the events. -/
structure Follows (w w' : FunctionWriterA64 Op) (es : List Event) : Prop where
  budget : w'.budget = es.foldl Budget.step w.budget
  veneers : w'.veneers = w.veneers ++ w.budget.collect Budget.area es
  labelFixups : w'.labelFixups = w.labelFixups ++ w.budget.collect Budget.fixup es
  labelAt : ∀ label,
    w'.labelAt label = (w.labelAt label).or ((w.budget.collect Budget.placed es).lookup label)

/-- The events of a call. -/
def Call.events : Call Op → List Event
  | ensureSpace size => [.ask size]
  | writeInst _ => [.ask 4, .skip 4]
  | writeInstUnchecked _ => [.skip 4]
  | labelCreate => []
  | labelPlace label => [.place label]
  | branchTo t label => [.branch (.ofTest t) label]

section
variable {w w' w'' : FunctionWriterA64 Op} {es es' : List Event} {size : ℕ}

theorem Follows.refl (w : FunctionWriterA64 Op) : Follows w w [] :=
  ⟨rfl, (List.append_nil _).symm, (List.append_nil _).symm, fun _ => (Option.or_none ..).symm⟩

theorem Follows.trans (h : Follows w w' es) (h' : Follows w' w'' es') : Follows w w'' (es ++ es') := by
  refine ⟨?_, ?_, ?_, fun label => ?_⟩
  · rw [h'.budget, h.budget, List.foldl_append]
  · rw [h'.veneers, h.veneers, h.budget, Budget.collect_append, List.append_assoc]
  · rw [h'.labelFixups, h.labelFixups, h.budget, Budget.collect_append, List.append_assoc]
  · rw [h'.labelAt, h.labelAt, h.budget, Budget.collect_append, List.lookup_append, Option.or_assoc]

theorem budget_grown (w : FunctionWriterA64 Op) (size : ℕ) :
    (w.grown size).budget = w.budget.refill size := by
  have hmax (a b : ℕ) : (if b ≤ a then a else b) = max a b := by
    rw [max_def]
    split_ifs <;> omega
  rw [grown, grow, Budget.refill]
  simp only [hmax]
  split_ifs with h h'
  · rfl
  · exact absurd h h'
  · exact absurd ‹_› h
  · rfl

theorem needsVeneers_iff (w : FunctionWriterA64 Op) : w.NeedsVeneers ↔ w.budget.Short := by
  have hreach : w.maxDist = w.budget.reach := by
    have htest : w.budget.testBrs = w.unresolvedTestBrs := rfl
    rw [maxDist, Budget.reach, htest]
    by_cases h : w.unresolvedTestBrs = 0
    · rw [if_neg (not_not.mpr h), if_pos h]
      rfl
    · rw [if_pos h, if_neg h]
      rfl
  rw [NeedsVeneers, hreach, not_lt]
  rfl

theorem ensureSpace_follows (h : w.ensureSpace size = some w') : Follows w w' [.ask size] := by
  have hlabels : w'.labelAt = w.labelAt := by
    funext label
    rw [labelAt, (ensureSpace_cases h).1]
    rfl
  have hfixups := (ensureSpace_fixups h).2
  have hbudget : w'.budget = w.budget.step (.ask size) ∧
    w'.veneers = w.veneers ++ w.budget.area (.ask size) := by
    have hgrown (n : ℕ) : (w.grow n).veneers = w.veneers := by
      rw [grow]
      split <;> rfl
    obtain ⟨-, h⟩ := Option.ite_none_left_eq_some.mp h
    rw [Budget.step, Budget.area]
    split at h
    · rename_i hfull
      have hleaves : w.budget.Leaves size ↔ (w.grown size).NeedsVeneers := by
        rw [needsVeneers_iff, budget_grown]
        exact and_iff_right hfull
      obtain ⟨-, ⟨hneeds, rfl⟩ | ⟨hneeds, rfl⟩⟩ := moreSpace_cases h
      · rw [if_pos (hleaves.mpr hneeds), if_pos (hleaves.mpr hneeds), ← budget_grown]
        refine ⟨?_, ?_⟩
        · simp only [budget, addVeneers, Budget.leave, Budget.pending, firstCondbr,
            List.getLast?_append, List.getLast?_singleton,
            Option.some_or, Option.getD_some, veneerSize]
          congr 1
          omega
        · simp only [addVeneers, grown, hgrown, offset_grow]
          rfl
      · rw [if_neg (mt hleaves.mp hneeds), if_neg (mt hleaves.mp hneeds),
          if_pos (show w.budget.allocated - w.budget.offset < size from hfull),
          ← budget_grown]
        exact ⟨rfl, by rw [grown, hgrown, List.append_nil]⟩
    · rename_i hroom
      obtain rfl := Option.some.inj h
      have hleaves : ¬ w.budget.Leaves size := fun hleaves => hroom hleaves.1
      rw [if_neg hleaves, if_neg hleaves,
        if_neg (show ¬ w.budget.allocated - w.budget.offset < size from hroom)]
      exact ⟨rfl, (List.append_nil _).symm⟩
  refine ⟨hbudget.1, ?_, ?_, fun label => ?_⟩
  · rw [hbudget.2, Budget.collect, Budget.collect, List.append_nil]
  · rw [hfixups]
    exact (List.append_nil _).symm
  · rw [hlabels]
    exact (Option.or_none ..).symm

theorem writeUnchecked_follows {i : Inst Op} (h : w.writeUnchecked i = some w') : Follows w w' [.skip 4] := by
  obtain ⟨-, h⟩ := Option.ite_none_right_eq_some.mp h
  obtain rfl := Option.some.inj h
  exact ⟨rfl, (List.append_nil _).symm, (List.append_nil _).symm, fun _ => (Option.or_none ..).symm⟩

theorem labelPlace_follows {label : ℕ} (h : w.labelPlace label w.offset = some w') :
    Follows w w' [.place label] := by
  obtain ⟨hpending, h⟩ := Option.ite_none_right_eq_some.mp h
  obtain rfl := Option.some.inj h
  refine ⟨rfl, (List.append_nil _).symm, (List.append_nil _).symm, fun l => ?_⟩
  show ((w.labelOffsets.set label (some w.offset))[l]?).join =
    ((w.labelOffsets[l]?).join).or ([(label, w.offset)].lookup l)
  by_cases hl : l = label
  · subst hl
    have hlt := (List.getElem?_eq_some_iff.mp hpending).1
    rw [List.getElem?_set_self hlt, hpending]
    simp
  · rw [List.getElem?_set_ne (Ne.symm hl)]
    rw [List.lookup, beq_false_of_ne hl]
    exact (Option.or_none ..).symm

/-- **A call** does what its events say. -/
theorem Call.exec_follows {call : Call Op} (h : call.exec w = some w') : Follows w w' call.events := by
  cases call with
  | ensureSpace size => exact ensureSpace_follows h
  | writeInst i =>
    obtain ⟨-, h⟩ := Option.ite_none_left_eq_some.mp h
    obtain ⟨w₁, hw₁, h⟩ := Option.bind_eq_some_iff.mp h
    exact (ensureSpace_follows hw₁).trans (writeUnchecked_follows h)
  | writeInstUnchecked i => exact writeUnchecked_follows (Option.ite_none_left_eq_some.mp h).2
  | labelCreate =>
    obtain rfl := Option.some.inj h
    refine ⟨rfl, (List.append_nil _).symm, (List.append_nil _).symm, fun label => ?_⟩
    show ((w.labelOffsets ++ [none])[label]?).join = ((w.labelOffsets[label]?).join).or none
    rw [Option.or_none, List.getElem?_append]
    split
    · rfl
    · rename_i hge
      rw [List.getElem?_eq_none (not_lt.mp hge), List.getElem?_singleton]
      split <;> rfl
  | labelPlace label => exact labelPlace_follows h
  | branchTo t label =>
    obtain ⟨-, rfl⟩ := branchTo_eq h
    exact ⟨rfl, (List.append_nil _).symm, rfl, fun _ => (Option.or_none ..).symm⟩

theorem run_follows {calls : List (Call Op)} (h : calls.foldlM Call.exec w = some w') :
    Follows w w' (calls.flatMap Call.events) := by
  induction calls generalizing w with
  | nil =>
    obtain rfl := Option.some.inj h
    exact .refl w
  | cons call calls ih =>
    obtain ⟨w₁, hw₁, h⟩ := Option.bind_eq_some_iff.mp h
    exact (Call.exec_follows hw₁).trans (ih h)

end

/-! ### The plan of a function -/

/-- The budget of a function before its first bytes are asked for. -/
def startBudget (w : FunctionWriterA64 Op) (expectedSize : ℕ) : Budget :=
  ⟨w.offset, w.allocatedSize, w.capacity, expectedSize, 0, 0, 0⟩

/-- The plan of a function that is begun at `w`. -/
def planOf (w : FunctionWriterA64 Op) (expectedSize : ℕ) (es : List Event) : Plan :=
  (w.startBudget expectedSize).plan (.ask expectedSize :: es)

section
variable {w w₀ w₁ : FunctionWriterA64 Op} {expectedSize : ℕ} {es : List Event} {f : LabelFixup}

/-- The writer has what is planned. -/
structure Planned (w : FunctionWriterA64 Op) (p : Plan) : Prop where
  veneers : w.veneers = p.areas
  labelFixups : w.labelFixups = p.branches
  labelAt : ∀ label, w.labelAt label = p.labels.lookup label

theorem planned (hbegin : w₀.beginFunc expectedSize = some w₁) (h : Follows w₁ w es) :
    Planned w (w₀.planOf expectedSize es) := by
  have hall := (ensureSpace_follows hbegin).trans h
  exact ⟨hall.veneers, hall.labelFixups, hall.labelAt⟩

theorem Planned.target {p : Plan} (h : Planned w p) (f : LabelFixup) : w.target f = p.target f :=
  h.labelAt f.label

theorem Planned.isFar {p : Plan} (h : Planned w p) (f : LabelFixup) : w.IsFar f = p.IsFar f := by
  rw [IsFar, Plan.IsFar, h.target]

theorem Planned.areaOf {p : Plan} (h : Planned w p) (f : LabelFixup) : w.areaOf f = p.areaOf f := by
  rw [FunctionWriterA64.areaOf, Plan.areaOf, h.veneers]

theorem Planned.farIn {p : Plan} (h : Planned w p) (v : ℕ) (fs : List LabelFixup) :
    w.farIn v fs = p.farIn v fs := by
  rw [FunctionWriterA64.farIn, Plan.farIn]
  simp only [h.isFar, h.areaOf]

theorem Planned.served {p : Plan} (h : Planned w p) (f : LabelFixup) : w.Served f ↔ p.Served f := by
  rw [Served, Plan.Served]
  simp only [h.areaOf, h.farIn, h.veneers, h.labelFixups]

/-- **When `handle_fixups` resolves all branches**: in every function of less than 128 MiB, however it
is written, each branch gets to its label at once or by its own veneer, control goes over the veneers
and nothing else is changed, if and only if each conditional branch that does not reach its label has an
area behind it with its slot in reach, and is not just behind an area that is used up. Where the
branches, the labels and the areas are follows from the calls. -/
theorem handleFixups_iff {calls : List (Call Op)} (halign : w₀.offset % 4 = 0)
    (hbegin : w₀.beginFunc expectedSize = some w₁)
    (hrun : calls.foldlM Call.exec w₁ = some w) (hsize : w.offset < w₀.offset + 128 * 1024 * 1024) :
    let p := w₀.planOf expectedSize (calls.flatMap Call.events)
    w.labelFixups = p.branches ∧ ((∀ f ∈ p.branches, (p.target f).isSome) →
      ((∃ w', w.handleFixups = some w' ∧ Resolved w₀.offset w w') ↔ ∀ f ∈ p.branches, p.IsFar f = true →
        p.Served f)) := by
  have hplan := planned hbegin (run_follows hrun)
  refine ⟨hplan.labelFixups, fun htarget => ?_⟩
  rw [handleFixups_of_inv ((Inv.beginFunc halign hbegin).run hrun) hsize fun f hf => ?_]
  · rw [hplan.labelFixups]
    simp only [hplan.isFar, hplan.served]
  · rw [hplan.target]
    exact htarget f (hplan.labelFixups ▸ hf)

end

/-! ### A branch over 32 KiB -/

/-- A section that is empty. -/
def emptyWriter : FunctionWriterA64 Unit where
  code _ := .garbled
  offset := 0
  allocatedSize := 0
  capacity := 0
  growthSize := 0
  labelOffsets := []
  labelFixups := []
  veneers := []
  unresolvedCondBrs := 0
  unresolvedTestBrs := 0

/-- A branch on a bit, which may be followed by a call for space, 8192 instructions and the label of the
branch. -/
def bitBranch (space : List (Call Unit)) : List (Call Unit) :=
  ([.labelCreate, .branchTo (.bitClear 0 0) 0] ++ space) ++
    (List.replicate 8192 (.writeInst (.op ())) ++ [.labelPlace 0])

/-- Instructions that there is room for. -/
theorem run_writeInst (o : Op) : ∀ (n : ℕ) {w : FunctionWriterA64 Op}, w.offset + 4 * n ≤ w.allocatedSize →
    ∃ w', (List.replicate n (Call.writeInst (.op o))).foldlM Call.exec w = some w' ∧
      w'.offset = w.offset + 4 * n ∧
      w'.labelOffsets = w.labelOffsets ∧ w'.labelFixups = w.labelFixups ∧ w'.veneers = w.veneers
  | 0, w, _ => ⟨w, rfl, rfl, rfl, rfl, rfl⟩
  | n + 1, w, hroom => by
    have hexec : (Call.writeInst (.op o)).exec w =
        some { w with code := Function.update w.code w.offset (.op o), offset := w.offset + 4 } := by
      rw [Call.exec, if_neg (by simp [isZero]), FunctionWriterA64.ensureSpace, if_neg (by omega),
        if_neg (by omega),
        Option.bind_eq_bind, Option.bind_some, FunctionWriterA64.writeUnchecked, if_pos (by omega)]
    obtain ⟨w', hw', hoff, hlabels, hfixups, hveneers⟩ := run_writeInst o n
      (w := { w with
        code := Function.update w.code w.offset (.op o), offset := w.offset + 4 }) (by dsimp only; omega)
    refine ⟨w', ?_, by rw [hoff]; dsimp only; omega, hlabels, hfixups, hveneers⟩
    rw [List.replicate_succ, List.foldlM_cons, hexec, Option.bind_eq_bind, Option.bind_some, hw']

/-- The writer behind a branch on a bit. -/
theorem run_bitBranch {space : List (Call Unit)} {w₁ w₂ : FunctionWriterA64 Unit}
    (hw₂ : ([Call.labelCreate, .branchTo (.bitClear 0 0) 0] ++ space).foldlM Call.exec w₁ = some w₂)
    (hlabels : w₂.labelOffsets = [none]) (hroom : w₂.offset + 4 * 8192 ≤ w₂.allocatedSize) :
    ∃ w, (bitBranch space).foldlM Call.exec w₁ = some w ∧ w.offset = w₂.offset + 4 * 8192 ∧
      w.labelOffsets = [some (w₂.offset + 4 * 8192)] ∧ w.labelFixups = w₂.labelFixups ∧
        w.veneers = w₂.veneers := by
  obtain ⟨w₃, hw₃, hoff, hlabels₃, hfixups, hveneers⟩ := run_writeInst () 8192 hroom
  have hplace : w₃.labelPlace 0 w₃.offset = some { w₃ with
    labelOffsets := w₃.labelOffsets.set 0 (some w₃.offset) } := by
    rw [FunctionWriterA64.labelPlace, if_pos (by rw [hlabels₃, hlabels]; rfl)]
  have hlast : [Call.labelPlace 0].foldlM Call.exec w₃ = some { w₃ with
    labelOffsets := w₃.labelOffsets.set 0 (some w₃.offset) } := by
    rw [List.foldlM_cons, Call.exec, hplace]
    rfl
  refine ⟨{ w₃ with labelOffsets := w₃.labelOffsets.set 0 (some w₃.offset) }, ?_, hoff, ?_, hfixups, hveneers⟩
  · rw [bitBranch, List.foldlM_append, hw₂, Option.bind_eq_bind, Option.bind_some, List.foldlM_append,
      hw₃, Option.bind_eq_bind,
      Option.bind_some, hlast]
  · dsimp only
    rw [hlabels₃, hlabels, hoff]
    rfl

/-- What is known of a writer before the instructions. -/
structure Shape where
  offset : ℕ
  room : Bool
  labelOffsets : List (Option ℕ)
  labelFixups : List LabelFixup
  veneers : List ℕ
  deriving DecidableEq

def shape (w : FunctionWriterA64 Op) : Shape :=
  ⟨w.offset, w.offset + 4 * 8192 ≤ w.allocatedSize, w.labelOffsets, w.labelFixups, w.veneers⟩

/-- The writers of a run that begins with the branch. -/
theorem run_of_shape {space : List (Call Unit)} {x : Shape} (hroom : x.room = true)
    (hlabels : x.labelOffsets = [none])
    (h : (do (([Call.labelCreate, .branchTo (.bitClear 0 0) 0] ++ space).foldlM Call.exec
      (← emptyWriter.beginFunc 0x10000))).map shape =
      some x) :
    ∃ w₁ w, emptyWriter.beginFunc 0x10000 = some w₁ ∧ (bitBranch space).foldlM Call.exec w₁ = some w ∧
      w.offset = x.offset + 4 * 8192 ∧ w.labelOffsets = [some (x.offset + 4 * 8192)] ∧
        w.labelFixups = x.labelFixups ∧
      w.veneers = x.veneers := by
  obtain ⟨w₂, hw₂, rfl⟩ := Option.map_eq_some_iff.mp h
  obtain ⟨w₁, hw₁, hw₂⟩ := Option.bind_eq_some_iff.mp hw₂
  obtain ⟨w, hw, hrest⟩ := run_bitBranch hw₂ hlabels (by simpa [shape] using hroom)
  exact ⟨w₁, w, hw₁, hw, hrest⟩

/-- **A branch that does not reach its label**: without a call for space in time there is no area behind
it. -/
theorem bitBranch_misses : ∃ w₁ w, emptyWriter.beginFunc 0x10000 = some w₁ ∧
    (bitBranch []).foldlM Call.exec w₁ = some w ∧
    w.offset < 128 * 1024 * 1024 ∧ (∀ f ∈ w.labelFixups, (w.target f).isSome) ∧
    ¬ ∃ w', w.handleFixups = some w' ∧ Resolved 0 w w' := by
  obtain ⟨w₁, w, hw₁, hw, hoff, hlabels, hfixups, hveneers⟩ :=
    @run_of_shape [] ⟨4, true, [none], [⟨0, 0, .testBr⟩], []⟩ rfl rfl (by decide +kernel)
  have hsize : w.offset < 0 + 128 * 1024 * 1024 := by
    rw [hoff]
    decide
  have htarget : w.target ⟨0, 0, .testBr⟩ = some (4 + 4 * 8192) := by
    rw [target, hlabels]
    rfl
  have hplaced : ∀ f ∈ w.labelFixups, (w.target f).isSome := by
    rw [hfixups]
    exact List.forall_mem_singleton.mpr (htarget ▸ rfl)
  have hinv : Inv 0 w := (Inv.beginFunc (w := emptyWriter) rfl hw₁).run hw
  refine ⟨w₁, w, hw₁, hw, by omega, hplaced, fun hresolved => ?_⟩
  obtain ⟨⟨v, hv, -⟩, -⟩ := (handleFixups_of_inv hinv hsize hplaced).mp hresolved ⟨0, 0, .testBr⟩
    (hfixups ▸ List.mem_singleton_self _) (isFar_iff.mpr ⟨rfl, _, htarget, by decide⟩)
  rw [areaOf, hveneers] at hv
  cases hv

/-- The same branch with a call for 128 KiB, which leaves an area behind it. -/
theorem bitBranch_resolved : ∃ w₁ w w', emptyWriter.beginFunc 0x10000 = some w₁ ∧
    (bitBranch [.ensureSpace 0x20000]).foldlM Call.exec w₁ = some w ∧ w.handleFixups = some w' ∧
      Resolved 0 w w' := by
  obtain ⟨w₁, w, hw₁, hw, hoff, hlabels, hfixups, hveneers⟩ :=
    @run_of_shape [.ensureSpace 0x20000] ⟨12, true, [none], [⟨0, 0, .testBr⟩],
      [8]⟩ rfl rfl (by decide +kernel)
  have hsize : w.offset < emptyWriter.offset + 128 * 1024 * 1024 := by
    rw [hoff]
    decide
  have hplan := planned hw₁ (run_follows hw)
  have hbranches := hplan.labelFixups.symm.trans hfixups
  have hareas := hplan.veneers.symm.trans hveneers
  have htarget : w.target ⟨0, 0, .testBr⟩ = some (12 + 4 * 8192) := by
    rw [target, hlabels]
    rfl
  obtain ⟨w', hw', hresolved⟩ := ((handleFixups_iff rfl hw₁ hw hsize).2 fun f hf => by
      rw [hbranches] at hf
      obtain rfl := List.mem_singleton.mp hf
      rw [← hplan.target, htarget]
      rfl).mpr fun f hf hfar => by
    rw [hbranches] at hf
    obtain rfl := List.mem_singleton.mp hf
    refine ⟨⟨8, ?_, ?_⟩, fun v hv => ?_⟩
    · rw [Plan.areaOf, hareas]
      rfl
    · rw [hbranches]
      show 8 + 4 * 0 < 0 + 4 * 2 ^ 13
      decide
    · rw [hareas] at hv
      obtain rfl := List.mem_singleton.mp hv
      show 8 + _ ≠ 0
      omega
  exact ⟨w₁, w, w', hw₁, hw, hw', hresolved⟩

end FunctionWriterA64

end Tpde.Assembler
