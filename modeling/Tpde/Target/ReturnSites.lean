import Tpde.Assembler.PatchedText
import Tpde.Assembler.VeneerAreas
import Tpde.Target.EpilogueA64

/-!
# Returns and areas for veneers

`gen_func_epilog` keeps the offset of a return before it asks for the room of the epilogue. If an area for
veneers is left by that, it is in the room, and `finish_func` writes the epilogue over it. So the epilogues of
a function undo its prologue if and only if the frame size has an encoding and no branch needs a slot that an
epilogue has been written to (`undone_iff_of_run`).
-/

namespace Tpde.Assembler.Plan

/-- The slot that a branch gets. -/
def slotOf (p : Plan) (f : LabelFixup) : ℕ :=
  (p.areaOf f).getD 0 + 4 * p.farIn ((p.areaOf f).getD 0) (p.branches.filter (·.off < f.off))

/-- A branch can be filled in when there are epilogues of some size at the returns: its label is near
enough for a veneer, and if it does not reach the label itself then it finds an area, which is not used
up just before it, and a slot there that no epilogue has been written to. -/
def Fixable (p : Plan) (size : ℕ) (f : LabelFixup) : Prop :=
  ∃ l, p.target f = some l ∧ l - f.off < 128 * 1024 * 1024 ∧
    (p.IsFar f = true → ((∃ v, p.areaOf f = some v) ∧ ∀ v ∈ p.areas, v + 4 * p.farIn v p.branches ≠ f.off) ∧
      ∀ off ∈ p.returns, p.slotOf f < off ∨ off + size ≤ p.slotOf f)

end Tpde.Assembler.Plan

namespace Tpde.Target.A64

open Tpde.Assembler SaveArea FunctionWriterA64

variable {Body : Type}

/-! ### The plan of a function -/

/-- The events of `start_func` and of the room for the prologue. -/
def beginEvents : List Event := [.ask 16, .align 16, .ask (regSaveSize + 12), .skip (regSaveSize + 12)]

/-- The events of a call. Only the first argument on the stack writes an instruction. -/
def FuncCall.events (alloc : ℕ) (added : Bool) : FuncCall Body → List Event
  | text call => call.events
  | argStackAdd _ => if added then [.ask 8] else [.ask 8, .skip 4]
  | genFuncEpilog => [.mark, .ask alloc, .skip alloc]

def FuncCall.adds : FuncCall Body → Bool
  | argStackAdd _ => true
  | text _ | genFuncEpilog => false

/-- The events of calls. -/
def callEvents (alloc : ℕ) : Bool → List (FuncCall Body) → List Event
  | _, [] => []
  | added, call :: calls => call.events alloc added ++ callEvents alloc (added || call.adds) calls

/-- The plan of a function that is begun at `w`. -/
def planOf (w : FunctionWriterA64 (TextOp Body)) (expectedSize : ℕ) (dynAlloca : Bool)
    (calls : List (FuncCall Body)) : Plan :=
  FunctionWriterA64.planOf w expectedSize
    (beginEvents ++ callEvents (regSaveSize + 12 + if dynAlloca then 4 else 0) false calls)

/-- From `f` to `f'` there are the events. -/
structure Func.Follows (f f' : Func Body) (es : List Event) : Prop where
  text : FunctionWriterA64.Follows f.textWriter f'.textWriter es
  returns : f'.funcRetOffs = f.funcRetOffs ++ f.textWriter.budget.collect Budget.marked es

section
variable {w w' : FunctionWriterA64 (TextOp Body)} {f f' f'' : Func Body} {es es' : List Event}
    {dynAlloca : Bool} {expectedSize : ℕ}

theorem Func.Follows.refl (f : Func Body) : f.Follows f [] := ⟨.refl _, (List.append_nil _).symm⟩

theorem Func.Follows.trans (h : f.Follows f' es) (h' : f'.Follows f'' es') : f.Follows f'' (es ++ es') := by
  refine ⟨h.text.trans h'.text, ?_⟩
  rw [h'.returns, h.returns, h.text.budget, Budget.collect_append, List.append_assoc]

theorem skipText_follows (w : FunctionWriterA64 (TextOp Body)) (size : ℕ) :
    FunctionWriterA64.Follows w (skipText w size) [.skip size] :=
  ⟨rfl, (List.append_nil _).symm, (List.append_nil _).symm, fun _ => (Option.or_none ..).symm⟩

/-- Writing text is no return. -/
theorem marked_events (b : Budget) (call : Call (TextOp Body)) :
    b.collect Budget.marked call.events = [] := by
  cases call <;> rfl

/-- **A call** does what its events say. -/
theorem FuncCall.exec_follows {call : FuncCall Body} (h : call.exec f = some f') :
    f.Follows f' (call.events f.funcEpilogueAlloc f.funcArgStackAdd.isSome) ∧
      f'.funcEpilogueAlloc = f.funcEpilogueAlloc ∧
      f'.funcArgStackAdd.isSome = (f.funcArgStackAdd.isSome || call.adds) := by
  cases call with
  | text call =>
    obtain ⟨w, hw, h⟩ := Option.bind_eq_some_iff.mp h
    obtain rfl := Option.some.inj h
    refine ⟨⟨Call.exec_follows hw, ?_⟩, rfl, (Bool.or_false _).symm⟩
    exact (List.append_nil _).symm.trans (congrArg _ (marked_events _ call).symm)
  | argStackAdd reg =>
    obtain ⟨w, hw, h⟩ := Option.bind_eq_some_iff.mp h
    split at h
    · rename_i hnone
      obtain ⟨w', hw', h⟩ := Option.bind_eq_some_iff.mp h
      obtain rfl := Option.some.inj h
      rw [hnone]
      exact ⟨⟨(ensureSpace_follows hw).trans (writeUnchecked_follows hw'), (List.append_nil _).symm⟩,
        rfl, rfl⟩
    · rename_i hsome
      obtain rfl := Option.some.inj h
      have hadded : f.funcArgStackAdd.isSome = true := Option.isSome_iff_ne_none.mpr hsome
      dsimp only
      rw [hadded]
      exact ⟨⟨ensureSpace_follows hw, (List.append_nil _).symm⟩, rfl, rfl⟩
  | genFuncEpilog =>
    obtain ⟨w, hw, h⟩ := Option.bind_eq_some_iff.mp h
    obtain rfl := Option.some.inj h
    have htext := (ensureSpace_follows hw).trans (skipText_follows w f.funcEpilogueAlloc)
    exact ⟨⟨⟨htext.budget, htext.veneers, htext.labelFixups, htext.labelAt⟩, rfl⟩, rfl,
      (Bool.or_false _).symm⟩

theorem func_follows {calls : List (FuncCall Body)} (h : calls.foldlM FuncCall.exec f = some f') :
    f.Follows f' (callEvents f.funcEpilogueAlloc f.funcArgStackAdd.isSome calls) := by
  induction calls generalizing f with
  | nil =>
    obtain rfl := Option.some.inj h
    exact .refl f
  | cons call calls ih =>
    obtain ⟨f₁, hf₁, h⟩ := Option.bind_eq_some_iff.mp h
    obtain ⟨hcall, halloc, hadded⟩ := FuncCall.exec_follows hf₁
    have hrest := ih h
    rw [halloc, hadded] at hrest
    exact hcall.trans hrest

/-- The beginning of a function. -/
theorem begin_follows (h : beginFunc w expectedSize dynAlloca = some f) :
    ∃ w₁, w.beginFunc expectedSize = some w₁ ∧
    FunctionWriterA64.Follows w₁ f.textWriter beginEvents ∧ f.funcRetOffs = [] ∧ f.funcArgStackAdd = none ∧
    f.funcEpilogueAlloc = regSaveSize + 12 + if dynAlloca then 4 else 0 := by
  obtain ⟨w₁, hw₁, h⟩ := Option.bind_eq_some_iff.mp h
  obtain ⟨w₂, hw₂, h⟩ := Option.bind_eq_some_iff.mp h
  obtain ⟨w₁', hw₁', hw₂⟩ := Option.bind_eq_some_iff.mp hw₂
  obtain ⟨w₃, hw₃, h⟩ := Option.bind_eq_some_iff.mp h
  obtain rfl := Option.some.inj hw₂
  obtain rfl := Option.some.inj h
  refine ⟨w₁, hw₁, ?_, rfl, rfl, rfl⟩
  have halign : FunctionWriterA64.Follows w₁'
      { w₁' with
        code := writeAt w₁'.code w₁'.offset (List.replicate 4 (.data 0))
        offset := alignUp w₁'.offset 16 } [.align 16] :=
    ⟨rfl, (List.append_nil _).symm, (List.append_nil _).symm, fun _ => (Option.or_none ..).symm⟩
  exact (ensureSpace_follows hw₁').trans
    (halign.trans ((ensureSpace_follows hw₃).trans (skipText_follows w₃ _)))

/-- **A function has what is planned.** -/
theorem func_planned {calls : List (FuncCall Body)} (hbegin : beginFunc w expectedSize dynAlloca = some f)
    (hrun : calls.foldlM FuncCall.exec f = some f') :
    Planned f'.textWriter (planOf w expectedSize dynAlloca calls) ∧
      f'.funcRetOffs = (planOf w expectedSize dynAlloca calls).returns := by
  obtain ⟨w₁, hw₁, hfirst, hrets, harg, halloc⟩ := begin_follows hbegin
  have hcalls := func_follows hrun
  rw [harg, halloc] at hcalls
  refine ⟨planned hw₁ (hfirst.trans hcalls.text), ?_⟩
  have hbudget :
    f.textWriter.budget = (Event.ask expectedSize :: beginEvents).foldl Budget.step
    (w.startBudget expectedSize) :=
    ((ensureSpace_follows hw₁).trans hfirst).budget
  rw [hcalls.returns, hrets, hbudget, List.nil_append]
  show _ = (w.startBudget expectedSize).collect Budget.marked ((.ask expectedSize :: beginEvents) ++ _)
  rw [Budget.collect_append]
  rfl

/-! ### The text of a function -/

/-- What holds of the text while a function is written. -/
structure Func.Written (f : Func Body) : Prop where
  text : FunctionWriterA64.Inv f.bodyOff f.textWriter
  arg : ∀ x, f.funcArgStackAdd = some x → x.1 < f.textWriter.offset ∧ ∃ i, f.textWriter.code x.1 = .op i
  ret : ∀ off ∈ f.funcRetOffs, off % 4 = 0

/-- More text. -/
theorem Func.Written.extend (h : f.Written) (hinv : FunctionWriterA64.Inv f.bodyOff w)
    (hle : f.textWriter.offset ≤ w.offset)
    (hcode : ∀ p < f.textWriter.offset, w.code p = f.textWriter.code p) :
      Func.Written { f with textWriter := w } := by
  refine ⟨hinv, fun x hx => ?_, h.ret⟩
  obtain ⟨hlt, i, hi⟩ := h.arg x hx
  exact ⟨hlt.trans_le hle, i, (hcode x.1 hlt).trans hi⟩

theorem Func.Written.exec {call : FuncCall Body} (h : f.Written) (hs : Sites dynAlloca f)
    (hf : call.exec f = some f') : f'.Written := by
  cases call with
  | text call =>
    obtain ⟨w, hw, hf⟩ := Option.bind_eq_some_iff.mp hf
    obtain rfl := Option.some.inj hf
    exact h.extend (h.text.exec hw) (exec_fixups hw).1 fun p hp => exec_code hw hp
  | argStackAdd reg =>
    obtain ⟨w, hw, hf⟩ := Option.bind_eq_some_iff.mp hf
    have hle := (ensureSpace_fixups hw).1
    have hinv := h.text.ensureSpace hw
    split at hf
    · obtain ⟨w', hw', hf⟩ := Option.bind_eq_some_iff.mp hf
      obtain rfl := Option.some.inj hf
      have hinv' := hinv.writeUnchecked hw'
      obtain ⟨-, hw'⟩ := Option.ite_none_right_eq_some.mp hw'
      obtain rfl := Option.some.inj hw'
      refine ⟨hinv', fun x hx => ?_, h.ret⟩
      obtain rfl := Option.some.inj hx
      exact ⟨Nat.lt_add_of_pos_right (by decide), _, Function.update_self ..⟩
    · obtain rfl := Option.some.inj hf
      exact h.extend hinv hle fun p hp => ensureSpace_code hw hp
  | genFuncEpilog =>
    obtain ⟨w, hw, hf⟩ := Option.bind_eq_some_iff.mp hf
    obtain rfl := Option.some.inj hf
    have hle := (ensureSpace_fixups hw).1
    have hinv := h.text.ensureSpace hw
    have halloc : f.funcEpilogueAlloc % 4 = 0 := by
      rw [hs.epilogueAlloc, regSaveSize_eq]
      split <;> rfl
    have halign := hinv.align
    have hskip : FunctionWriterA64.Inv f.bodyOff (skipText w f.funcEpilogueAlloc) := by
      refine hinv.extend rfl rfl rfl rfl rfl (fun _ _ => rfl) (Nat.le_add_right ..) ?_
      show (w.offset + f.funcEpilogueAlloc) % 4 = 0
      omega
    have hcode : ∀ p < f.textWriter.offset, (skipText w f.funcEpilogueAlloc).code p = f.textWriter.code p :=
      fun p hp => (ensureSpace_code hw hp : w.code p = _)
    obtain ⟨-, harg, hret⟩ := h.extend hskip (hle.trans (Nat.le_add_right ..)) hcode
    exact ⟨hskip, harg, List.forall_mem_append.mpr ⟨hret, List.forall_mem_singleton.mpr h.text.align⟩⟩

theorem Func.Written.run {calls : List (FuncCall Body)} (h : f.Written) (hs : Sites dynAlloca f)
    (hf : calls.foldlM FuncCall.exec f = some f') : f'.Written := by
  induction calls generalizing f with
  | nil =>
    obtain rfl := Option.some.inj hf
    exact h
  | cons call calls ih =>
    obtain ⟨f₁, hf₁, hf⟩ := Option.bind_eq_some_iff.mp hf
    exact ih (h.exec hs hf₁) (hs.exec hf₁) hf

/-- A writer without branches and labels. -/
structure Blank (w : FunctionWriterA64 (TextOp Body)) : Prop where
  labelOffsets : w.labelOffsets = []
  labelFixups : w.labelFixups = []
  veneers : w.veneers = []
  condBrs : w.unresolvedCondBrs = 0
  testBrs : w.unresolvedTestBrs = 0

/-- No area is left without branches. -/
theorem Blank.ensureSpace {size : ℕ} (h : Blank w) (hw : w.ensureSpace size = some w') :
    Blank w' ∧ w'.offset = w.offset := by
  have hneeds : ¬ (w.grown size).NeedsVeneers := fun hneeds => hneeds.1 (by
    rw [grown, veneerSize_grow, veneerSize, h.condBrs, h.testBrs])
  have hgrow (n : ℕ) : Blank (w.grow n) := by
    obtain ⟨hlabels, hfixups, hveneers, hcond, htest⟩ := h
    rw [grow]
    split <;> exact ⟨hlabels, hfixups, hveneers, hcond, htest⟩
  rw [FunctionWriterA64.ensureSpace] at hw
  obtain ⟨-, hw⟩ := Option.ite_none_left_eq_some.mp hw
  split at hw
  · obtain ⟨-, hw⟩ := Option.ite_none_left_eq_some.mp hw
    rw [if_neg hneeds] at hw
    obtain rfl := Option.some.inj hw
    exact ⟨hgrow _, offset_grow ..⟩
  · obtain rfl := Option.some.inj hw
    exact ⟨h, rfl⟩

theorem Func.Written.begin (hf : beginFunc w expectedSize dynAlloca = some f) : f.Written := by
  obtain ⟨w₁, hw₁, hf⟩ := Option.bind_eq_some_iff.mp hf
  obtain ⟨w₂, hw₂, hf⟩ := Option.bind_eq_some_iff.mp hf
  obtain ⟨w₁', hw₁', hw₂⟩ := Option.bind_eq_some_iff.mp hw₂
  obtain ⟨w₃, hw₃, hf⟩ := Option.bind_eq_some_iff.mp hf
  obtain rfl := Option.some.inj hw₂
  obtain rfl := Option.some.inj hf
  obtain ⟨hblank₁, -⟩ := Blank.ensureSpace ⟨rfl, rfl, rfl, rfl, rfl⟩ hw₁
  obtain ⟨hblank₁', -⟩ := hblank₁.ensureSpace hw₁'
  obtain ⟨hblank, hoff⟩ := Blank.ensureSpace (w := { w₁' with
    code := writeAt w₁'.code w₁'.offset (List.replicate 4 (.data 0)), offset := alignUp w₁'.offset 16 })
    ⟨hblank₁'.labelOffsets, hblank₁'.labelFixups, hblank₁'.veneers, hblank₁'.condBrs, hblank₁'.testBrs⟩ hw₃
  have hoff : w₃.offset = alignUp w₁'.offset 16 := hoff
  have hbody : alignUp w₁'.offset 16 + (regSaveSize + 12) = w₃.offset + (regSaveSize + 12) :=
    congrArg (· + _) hoff.symm
  have halign : alignUp w₁'.offset 16 % 16 = 0 := Nat.mul_mod_left ..
  obtain ⟨hlabels, hfixups, hveneers, hcond, htest⟩ := hblank
  refine ⟨⟨?_, ?_, ?_, ?_, ?_, ?_, ?_, ?_, ?_⟩, nofun, nofun⟩
  · show (w₃.offset + (regSaveSize + 12)) % 4 = 0
    rw [regSaveSize_eq]
    omega
  · show alignUp w₁'.offset 16 + (regSaveSize + 12) +
      4 * (w₃.unresolvedTestBrs + w₃.unresolvedCondBrs) ≤ w₃.offset + (regSaveSize + 12)
    rw [hcond, htest, hbody]
    exact le_rfl
  · show w₃.labelFixups.Pairwise _
    rw [hfixups]
    exact .nil
  · intro x hx
    have hx : x ∈ w₃.labelFixups := hx
    rw [hfixups] at hx
    cases hx
  · intro v hv
    have hv : v ∈ w₃.veneers := hv
    rw [hveneers] at hv
    cases hv
  · show w₃.veneers.Pairwise _
    rw [hveneers]
    exact .nil
  · intro l hl
    have hl : some l ∈ w₃.labelOffsets := hl
    rw [hlabels] at hl
    cases hl
  · show w₃.unresolvedCondBrs = FunctionWriterA64.unresolved _ .condBr w₃.labelFixups
    rw [hcond, hfixups]
    rfl
  · show w₃.unresolvedTestBrs = FunctionWriterA64.unresolved _ .testBr w₃.labelFixups
    rw [htest, hfixups]
    rfl

/-! ### Slots under epilogues -/

variable {clobbered : BitVec 64} {frameSize : ℕ}

/-- The text with the epilogues is that of the function, but for words that are no branches. -/
theorem Finished.patched (h : Finished clobbered frameSize dynAlloca f f') (hs : Sites dynAlloca f)
    (hw : f.Written) :
    Patched f.textWriter f'.textWriter := by
  have hcode : ∀ x ∈ f.textWriter.labelFixups, f'.textWriter.code x.off = f.textWriter.code x.off :=
    fun x hx => by
    obtain ⟨hlo, -, hrets⟩ := hs.fixup x hx
    refine h.other x.off hlo (fun y hy heq => ?_) fun off hoff => ?_
    · obtain ⟨t, ht, -⟩ := (hw.text.fixup x hx).branch
      obtain ⟨-, i, hi⟩ := hw.arg y hy
      rw [heq, hi] at ht
      cases ht
    · have := hrets off hoff
      omega
  obtain ⟨code, offset, htext⟩ := h.text
  rw [htext] at hcode ⊢
  exact ⟨rfl, rfl, rfl, rfl, rfl, hcode⟩

/-- A slot is empty when the epilogues are written if and only if none is written to it. -/
theorem Finished.isZero_slot (h : Finished clobbered frameSize dynAlloca f f') (hs : Sites dynAlloca f)
    (hw : f.Written) {v i : ℕ}
    (hv : v ∈ f.textWriter.veneers) (hi : i < f.textWriter.slots v) :
      isZero (f'.textWriter.code (v + 4 * i)) = true ↔
      ∀ off ∈ f.funcRetOffs, v + 4 * i < off ∨
        off + 4 * (epilogue clobbered frameSize dynAlloca).length ≤ v + 4 * i := by
  obtain ⟨hroom, halign, -, -, hempty⟩ := hw.text.area v hv
  have halloc : f.funcEpilogueAlloc % 4 = 0 := by
    rw [hs.epilogueAlloc, regSaveSize_eq]
    split <;> rfl
  have hlen : 4 * (epilogue clobbered frameSize dynAlloca).length ≤ f.funcEpilogueAlloc :=
    (length_epilogue_le clobbered frameSize dynAlloca).trans_eq hs.epilogueAlloc.symm
  have hwords : 4 * (epilogueWords f.funcEpilogueAlloc (epilogue clobbered frameSize dynAlloca) :
      List (Branches.Inst (TextOp Body))).length = f.funcEpilogueAlloc := length_epilogueWords halloc hlen
  constructor
  · intro hzero off hoff
    by_contra hin
    have hmod := hw.ret off hoff
    obtain ⟨j, hj⟩ : ∃ j, v + 4 * i = off + 4 * j := ⟨(v + 4 * i - off) / 4, by omega⟩
    have hjlt : j < (epilogue clobbered frameSize dynAlloca).length := by omega
    rw [hj, (h.epilogueAt off hoff).codeAt j _ (List.getElem?_eq_getElem hjlt)] at hzero
    cases hzero
  · intro hout
    by_cases hin : ∃ off ∈ f.funcRetOffs, off ≤ v + 4 * i ∧ v + 4 * i < off + f.funcEpilogueAlloc
    · obtain ⟨off, hoff, hlo, hhi⟩ := hin
      have hmod := hw.ret off hoff
      have hge := hout off hoff
      obtain ⟨j, hj⟩ : ∃ j, v + 4 * i = off + 4 * j := ⟨(v + 4 * i - off) / 4, by omega⟩
      have hzero : (epilogueWords f.funcEpilogueAlloc (epilogue clobbered frameSize dynAlloca) :
          List (Branches.Inst (TextOp Body)))[j]? = some (.data 0) := by
        have hjlt : j - (epilogue clobbered frameSize dynAlloca).length <
            (f.funcEpilogueAlloc - 4 * (epilogue clobbered frameSize dynAlloca).length) / 4 := by omega
        have hframe :
          (frameWords (epilogue clobbered frameSize dynAlloca) : List (Branches.Inst (TextOp Body))).length =
            (epilogue clobbered frameSize dynAlloca).length := List.length_map _
        rw [epilogueWords, List.getElem?_append_right (by omega), hframe, zeroWords,
          List.getElem?_replicate, if_pos hjlt]
      rw [hj, h.epilogueAt off hoff j _ hzero]
      rfl
    · have hother : f'.textWriter.code (v + 4 * i) = f.textWriter.code (v + 4 * i) := by
        refine h.other _ (by omega) (fun x hx heq => ?_) fun off hoff => ?_
        · obtain ⟨-, y, hy⟩ := hw.arg x hx
          rw [← heq, hempty i hi] at hy
          cases hy
        · by_contra hno
          exact hin ⟨off, hoff, by omega, by omega⟩
      rw [hother, hempty i hi]
      rfl

/-- The branches of a finished function can be filled in as they can in its plan. -/
theorem Finished.fixable_iff {p : Plan} (h : Finished clobbered frameSize dynAlloca f f')
    (hs : Sites dynAlloca f) (hw : f.Written)
    (hplan : Planned f.textWriter p) (hrets : f.funcRetOffs = p.returns) {x : LabelFixup}
    (hx : x ∈ f.textWriter.labelFixups) :
    f.textWriter.Fixable f'.textWriter x ↔
      p.Fixable (4 * (epilogue clobbered frameSize dynAlloca).length) x := by
  have hslotOf : f.textWriter.slotOf x = p.slotOf x := by
    rw [slotOf, Plan.slotOf, hplan.areaOf, hplan.farIn, hplan.labelFixups]
  rw [FunctionWriterA64.Fixable, Plan.Fixable, ← hplan.isFar x, ← hrets, ← hslotOf, ← hplan.target x,
    ← hplan.areaOf x, ← hplan.veneers,
    ← hplan.labelFixups]
  simp only [← hplan.farIn]
  refine exists_congr fun l => and_congr_right fun _ => and_congr_right fun _ =>
    imp_congr_right fun hfar => ?_
  refine and_congr_right fun hslotted => ?_
  obtain ⟨⟨v, hv⟩, -⟩ := hslotted
  obtain ⟨i, hi, heq⟩ := slotOf_mem hw.text hx hfar hv
  rw [heq]
  exact h.isZero_slot hs hw (mem_of_areaOf hv).1 hi

/-- **The epilogues of a function undo its prologue** if and only if the frame is smaller than 16 MiB
and every branch can be filled in. -/
theorem undone_iff_of_run {calls : List (FuncCall Body)}
    (hbegin : beginFunc w expectedSize dynAlloca = some f)
    (hrun : calls.foldlM FuncCall.exec f = some f') :
    let p := planOf w expectedSize dynAlloca calls
    f'.Undone clobbered frameSize dynAlloca ↔ finalFrameSize frameSize < 16 * 1024 * 1024 ∧
      ∀ x ∈ p.branches, p.Fixable (4 * (epilogue clobbered frameSize dynAlloca).length) x := by
  intro p
  have hs : Sites dynAlloca f' := (Sites.begin hbegin).run hrun
  have hw : f'.Written := (Func.Written.begin hbegin).run (Sites.begin hbegin) hrun
  obtain ⟨hplan, hrets⟩ := func_planned hbegin hrun
  have hfix {f'' : Func Body} (hf'' : Finished clobbered frameSize dynAlloca f' f'') :
    f''.textWriter.handleFixups.isSome ↔
      ∀ x ∈ p.branches, p.Fixable (4 * (epilogue clobbered frameSize dynAlloca).length) x := by
    rw [handleFixups_isSome_iff hw.text (hf''.patched hs hw), hplan.labelFixups]
    exact forall₂_congr fun x hx => hf''.fixable_iff hs hw hplan hrets (hplan.labelFixups ▸ hx)
  by_cases hsize : finalFrameSize frameSize < 16 * 1024 * 1024
  · obtain ⟨f'', hf'', hfinished⟩ := @Sites.finishFunc _ clobbered frameSize dynAlloca f' hs hsize
    rw [and_iff_right hsize, ← hfix hfinished]
    constructor
    · rintro ⟨g, w', -, -, hg, hw', -⟩
      obtain rfl := Option.some.inj (hf''.symm.trans hg)
      exact Option.isSome_iff_exists.mpr ⟨w', hw'⟩
    · intro hsome
      obtain ⟨w', hw'⟩ := Option.isSome_iff_exists.mp hsome
      obtain ⟨hpro, hepi⟩ := hfinished.codeAt hs hw'
      refine ⟨f'', w', _, _, hf'', hw', List.forall_mem_append.mpr ⟨?_, epilogue_encodable hsize⟩,
        hfinished.body, hfinished.align, hpro,
        hepi, fun m m' hbody => ?_⟩
      · refine List.forall_mem_append.mpr ⟨fun i hi => ?_, fun i hi => ?_⟩
        · obtain ⟨j, hj, rfl⟩ := List.mem_map.mp hi
          exact prologue_encodable hsize j hj
        · obtain ⟨-, rfl⟩ := List.mem_replicate.mp hi
          trivial
      · rw [run_paddedPrologue] at hbody
        refine ((framed_prologue m).body hbody).returns fun hdyn => ?_
        rw [hbody.stackPointer hdyn, hbody.framePointer, prologue_stackPointer]
  · refine iff_of_false ?_ fun h => hsize h.1
    rintro ⟨f'', -, -, -, hf'', -⟩
    rw [Func.finishFunc, if_neg hsize] at hf''
    cases hf''

end

/-! ### A return over an area -/

/-- A section that is full. -/
def fullText : FunctionWriterA64 (TextOp Unit) where
  code _ := .garbled
  offset := 0x10000
  allocatedSize := 0x10000
  capacity := 0x10000
  growthSize := 0
  labelOffsets := []
  labelFixups := []
  veneers := []
  unresolvedCondBrs := 0
  unresolvedTestBrs := 0

/-- A branch on a bit, an instruction and a return, at which the buffer is full. -/
def returnBehindBranch : List (FuncCall Unit) :=
  [.text .labelCreate, .text (.branchTo (.bitClear 0 (.last 63)) 0),
    .text (.writeInst (.op (.body ()))), .genFuncEpilog]

/-- 8192 instructions, and then the label of the branch. -/
def restOfText : List (Call (TextOp Unit)) :=
  List.replicate 8192 (.writeInst (.op (.body ()))) ++ [.labelPlace 0]

def returnOverArea : List (FuncCall Unit) := returnBehindBranch ++ restOfText.map .text

theorem run_text {Body : Type} {calls : List (Call (TextOp Body))} {f : Func Body}
    {w : FunctionWriterA64 (TextOp Body)}
    (h : calls.foldlM Call.exec f.textWriter = some w) :
      (calls.map .text).foldlM FuncCall.exec f = some { f with textWriter := w } := by
  induction calls generalizing f with
  | nil =>
    obtain rfl := Option.some.inj h
    rfl
  | cons call calls ih =>
    obtain ⟨w₁, hw₁, h⟩ := Option.bind_eq_some_iff.mp h
    have hcall : (FuncCall.text call).exec f = some { f with textWriter := w₁ } := by
      rw [FuncCall.exec, hw₁]; rfl
    rw [List.map_cons, List.foldlM_cons, hcall]
    exact ih (f := { f with textWriter := w₁ }) h

/-- **An epilogue over an area**: the veneer of the branch is in the room of the return, so the branch
cannot be filled in. -/
theorem not_undone_returnOverArea (clobbered : BitVec 64) (frameSize : ℕ) : ∃ f f',
    beginFunc fullText 0x60 false = some f ∧
    returnOverArea.foldlM FuncCall.exec f = some f' ∧ ¬ f'.Undone clobbered frameSize false := by
  obtain ⟨f₁, hf₁, hshape⟩ :
    ∃ f₁, (do returnBehindBranch.foldlM FuncCall.exec (← beginFunc fullText 0x60 false)) = some f₁ ∧
      (shape f₁.textWriter, f₁.funcRetOffs) =
        (⟨0x10070, true, [none], [⟨0, 0x10030, .testBr⟩], [0x1003C]⟩, [0x10038]) :=
    Option.map_eq_some_iff.mp (by decide +kernel)
  obtain ⟨hshape, hrets⟩ := Prod.mk.inj hshape
  obtain ⟨f, hf, hf₁⟩ := Option.bind_eq_some_iff.mp hf₁
  obtain ⟨hoff, hroom, hlabels, hfixups, hveneers⟩ := Shape.mk.inj hshape
  obtain ⟨w, hw, hoff', hlabels', hfixups', hveneers'⟩ :=
    run_writeInst (.body () : TextOp Unit) 8192 (of_decide_eq_true hroom)
  have hplace : w.labelPlace 0 w.offset = some { w with
    labelOffsets := w.labelOffsets.set 0 (some w.offset) } := by
    rw [FunctionWriterA64.labelPlace, if_pos (by rw [hlabels', hlabels]; rfl)]
  have hrun : returnOverArea.foldlM FuncCall.exec f =
      some { f₁ with textWriter := { w with labelOffsets := w.labelOffsets.set 0 (some w.offset) } } := by
    rw [returnOverArea, List.foldlM_append, hf₁, Option.bind_eq_bind, Option.bind_some]
    refine run_text ?_
    rw [restOfText, List.foldlM_append, hw, Option.bind_eq_bind, Option.bind_some, List.foldlM_cons,
      Call.exec, hplace]
    rfl
  obtain ⟨hplan, hreturns⟩ := func_planned hf hrun
  refine ⟨f, _, hf, hrun, fun hundone => ?_⟩
  obtain ⟨-, hfix⟩ := (undone_iff_of_run hf hrun).mp hundone
  set p := planOf fullText 0x60 false returnOverArea
  have hbranches : p.branches = [⟨0, 0x10030, .testBr⟩] :=
    hplan.labelFixups.symm.trans (hfixups'.trans hfixups)
  have hareas : p.areas = [0x1003C] := hplan.veneers.symm.trans (hveneers'.trans hveneers)
  have hreturns : p.returns = [0x10038] := hreturns.symm.trans hrets
  have htarget : p.target ⟨0, 0x10030, .testBr⟩ = some 0x18070 := by
    rw [← hplan.target, target]
    dsimp only
    rw [hlabels', hlabels, hoff', hoff]
    rfl
  have hfar : p.IsFar ⟨0, 0x10030, .testBr⟩ = true := by
    rw [Plan.IsFar, htarget]
    rfl
  obtain ⟨-, -, -, hslot⟩ := hfix ⟨0, 0x10030, .testBr⟩ (hbranches ▸ List.mem_singleton_self _)
  have hfree := (hslot hfar).2 0x10038 (hreturns ▸ List.mem_singleton_self _)
  have hslotOf : p.slotOf ⟨0, 0x10030, .testBr⟩ = 0x1003C := by
    rw [Plan.slotOf, Plan.areaOf, hareas, hbranches]
    rfl
  have hlen : 2 ≤ (epilogue clobbered frameSize false).length := by
    rw [epilogue, List.length_append]
    exact Nat.le_add_left ..
  rw [hslotOf] at hfree
  omega

end Tpde.Target.A64
