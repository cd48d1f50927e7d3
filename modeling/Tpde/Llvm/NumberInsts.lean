import Tpde.Llvm.SwitchFunc

/-!
# The second pass numbers a block

What `handle_inst_in_block` does to the instructions of a block. `Numbers` says which of them get an
index: all, if and only if the instructions settle (`numberInsts_numbers`). An instruction settles if
the first instruction that is inserted for its constants is the one that the pass goes back to,
and if those inserted settle themselves (`ready_of_restart_some`).
-/

namespace Tpde.Ir

open Llvm

variable {τ : Type*}

/-! ### The phis of a block -/

/-- The same phis, at the beginning of the block and in all of it. -/
structure SamePhis (b b' : Block) : Prop where
  leading : b'.leadingPhis.map Inst.id = b.leadingPhis.map Inst.id
  all : (b'.filter Inst.isPhi).map Inst.id = (b.filter Inst.isPhi).map Inst.id

namespace SamePhis

variable {b b' b'' : Block}

theorem refl (b : Block) : SamePhis b b := ⟨rfl, rfl⟩

theorem trans (h : SamePhis b b') (h' : SamePhis b' b'') : SamePhis b b'' :=
  ⟨h'.leading.trans h.leading, h'.all.trans h.all⟩

end SamePhis

@[simp] theorem leadingPhis_cons_phi {i : Inst} (h : i.isPhi = true) (b : Block) :
    Block.leadingPhis (i :: b) = i :: b.leadingPhis := List.takeWhile_cons_of_pos h

@[simp] theorem leadingPhis_cons {i : Inst} (h : i.isPhi = false) (b : Block) :
    Block.leadingPhis (i :: b) = [] := List.takeWhile_cons_of_neg (by simp [h])

/-- Nothing leads a block that begins with something else. -/
theorem leadingPhis_append {a : Block} (ha : ∀ i ∈ a, i.isPhi = false) {b : Block}
    (hb : b.leadingPhis = []) : Block.leadingPhis (a ++ b) = [] := by
  cases a with
  | nil => exact hb
  | cons i a => exact leadingPhis_cons (ha i List.mem_cons_self) _

theorem filter_isPhi_eq_nil {a : Block} (ha : ∀ i ∈ a, i.isPhi = false) : a.filter Inst.isPhi = [] :=
  List.filter_eq_nil_iff.mpr fun i hi => by simp [ha i hi]

/-- A block begins with its phis if they are all at the beginning. -/
theorem phisFirst_iff {b : Block} : b.PhisFirst ↔ b.leadingPhis.length = (b.filter Inst.isPhi).length := by
  induction b with
  | nil => simp [Block.PhisFirst, Block.leadingPhis]
  | cons i b ih =>
    cases hi : i.isPhi with
    | true =>
      rw [leadingPhis_cons_phi hi, List.filter_cons_of_pos hi, List.length_cons, List.length_cons,
        Nat.add_right_cancel_iff, ← ih, Block.PhisFirst, List.pairwise_cons]
      simp [hi, Block.PhisFirst]
    | false =>
      rw [leadingPhis_cons hi, List.filter_cons_of_neg (by simp [hi]), List.length_nil, Block.PhisFirst,
        List.pairwise_cons]
      constructor
      · rintro ⟨hb, -⟩
        rw [filter_isPhi_eq_nil fun j hj => ?_]
        · rfl
        · cases hphi : j.isPhi with
          | true => exact absurd (hb j hj hphi) (by simp [hi])
          | false => rfl
      · intro hlen
        have hnil := List.filter_eq_nil_iff.mp (List.length_eq_zero_iff.mp hlen.symm)
        refine ⟨fun j hj hphi => absurd hphi (hnil j hj), ?_⟩
        exact List.pairwise_of_forall_mem_list fun j hj k hk hphi => absurd hphi (hnil k hk)

theorem SamePhis.phisFirst_iff {b b' : Block} (h : SamePhis b b') : b'.PhisFirst ↔ b.PhisFirst := by
  have hleading := congrArg List.length h.leading
  have hall := congrArg List.length h.all
  simp only [List.length_map] at hleading hall
  rw [Ir.phisFirst_iff, Ir.phisFirst_iff, hleading, hall]

/-- Of a block with its phis first, what leads it is all of its phis. -/
theorem leadingPhis_eq_filter {b : Block} : b.leadingPhis = b.filter Inst.isPhi ↔ b.PhisFirst := by
  have hsub : b.leadingPhis.Sublist (b.filter Inst.isPhi) := by
    have hall : b.leadingPhis.filter Inst.isPhi = b.leadingPhis :=
      List.filter_eq_self.mpr fun i hi => (List.mem_takeWhile_imp hi)
    rw [← hall]
    exact (List.takeWhile_sublist _).filter _
  rw [phisFirst_iff]
  exact ⟨fun h => congrArg List.length h, fun h => hsub.eq_of_length h⟩

theorem dropWhile_eq_filter {b : Block} (h : b.PhisFirst) :
    b.dropWhile Inst.isPhi = b.filter fun i => !i.isPhi := by
  induction b with
  | nil => rfl
  | cons i b ih =>
    obtain ⟨hi, hb⟩ := List.pairwise_cons.mp h
    cases hphi : i.isPhi with
    | true =>
      rw [List.dropWhile_cons_of_pos hphi, List.filter_cons_of_neg (by simp [hphi])]
      exact ih hb
    | false =>
      rw [List.dropWhile_cons_of_neg (by simp [hphi]), List.filter_eq_self.mpr]
      intro j hj
      cases hj with
      | head => simp [hphi]
      | tail _ hj =>
        have := mt (hi j hj) (by simp [hphi])
        simpa using this

/-- Up to the last phi that leads a block, there are the phis that lead it. -/
theorem splitAfter_leading {b : Block} (hnodup : (b.map Inst.id).Nodup) {last : Inst}
    (h : b.leadingPhis.getLast? = some last) :
    splitAfter last.id b = (b.leadingPhis, b.dropWhile Inst.isPhi) := by
  induction b with
  | nil => cases h
  | cons i b ih =>
    cases hphi : i.isPhi with
    | false =>
      rw [leadingPhis_cons hphi] at h
      cases h
    | true =>
      rw [leadingPhis_cons_phi hphi] at h ⊢
      rw [List.dropWhile_cons_of_pos hphi]
      rw [List.map_cons, List.nodup_cons] at hnodup
      rw [splitAfter]
      cases hb : Block.leadingPhis b with
      | nil =>
        rw [hb] at h
        obtain rfl : i = last := by simpa using h
        rw [if_pos rfl]
        have hdrop := List.takeWhile_append_dropWhile (p := Inst.isPhi) (l := b)
        rw [show b.takeWhile Inst.isPhi = [] from hb, List.nil_append] at hdrop
        rw [hdrop]
      | cons j js =>
        rw [hb, List.getLast?_cons_cons, ← hb] at h
        have hmem : last ∈ b := (List.takeWhile_sublist _).subset (List.mem_of_getLast? h)
        have hne : i.id ≠ last.id := fun heq => hnodup.1 (heq ▸ List.mem_map_of_mem hmem)
        rw [if_neg hne, ih hnodup.2 h, hb]

/-! ### The constants of one instruction -/

/-- The first instruction inserted for constants is returned for exactly those that report. -/
theorem insBegin_all_iff (cs : List Const) (n : ℕ) :
    (fixupAll n cs).insBegin = (fixupAll n cs).insts.head?.map Inst.id ↔
      Const.reportsFirst true cs = true := by
  induction cs generalizing n with
  | nil => simp [fixupAll, Const.reportsFirst]
  | cons c cs ih =>
    rw [fixupAll]
    dsimp only
    rw [orElse_head_iff (fixupConstant_fresh c n) (fixupAll_fresh cs _) (insBegin_mem c n)
      (insBegin_all_mem cs _), ne_eq, insts_eq_nil, ih, insBegin_iff, Const.reportsFirst]
    cases c.inserts <;> simp

theorem insts_all_settled (cs : List Const) (n : ℕ) :
    (∀ i ∈ (fixupAll n cs).insts, i.settled = true) ↔ Const.settledAll cs = true := by
  induction cs generalizing n with
  | nil => simp [fixupAll, Const.settledAll]
  | cons c cs ih =>
    rw [fixupAll, Const.settledAll, Bool.and_eq_true, ← insts_settled c n, ← ih (fixupConstant n c).next]
    exact List.forall_mem_append

/-- No phi is inserted. -/
theorem insts_isPhi (c : Const) (n : ℕ) : ∀ i ∈ (fixupConstant n c).insts, i.isPhi = false := by
  intro i hi
  obtain ⟨op, hop⟩ := insts_pure c n i hi
  rw [Inst.isPhi, hop]
  rfl

theorem insts_all_isPhi (cs : List Const) (n : ℕ) : ∀ i ∈ (fixupAll n cs).insts, i.isPhi = false := by
  induction cs generalizing n with
  | nil => exact nofun
  | cons c cs ih => exact List.forall_mem_append.mpr ⟨insts_isPhi c n, ih _⟩

/-- The instruction to go back to divides what is inserted into instructions that need nothing more, and
the rest. -/
theorem fixupAll_restart {cs : List Const} {n id : ℕ} (h : (fixupAll n cs).insBegin = some id) :
    (∀ i ∈ (fixupAll n cs).insts.takeWhile (·.id ≠ id), i.inert = true) ∧
      ((fixupAll n cs).insBegin = (fixupAll n cs).insts.head?.map Inst.id ↔
        (fixupAll n cs).insts.takeWhile (·.id ≠ id) = []) := by
  obtain ⟨pre, post, hinsts, hinert, hbegin⟩ := inert_before_all cs n
  have hnodup := (fixupAll_fresh cs n).nodup
  rw [h] at hbegin
  cases post with
  | nil => cases hbegin
  | cons j post =>
    obtain rfl : id = j.id := by simpa using hbegin
    have hpre : ∀ i ∈ pre, i.id ≠ j.id := by
      rw [hinsts, List.map_append, List.nodup_append] at hnodup
      exact fun i hi => hnodup.2.2 _ (List.mem_map_of_mem hi) _ (by simp)
    have htake : (fixupAll n cs).insts.takeWhile (·.id ≠ j.id) = pre := by
      rw [hinsts, List.takeWhile_append_of_pos (by simpa using hpre), List.takeWhile_cons_of_neg (by simp),
        List.append_nil]
    rw [htake]
    refine ⟨hinert, ?_⟩
    rw [h, hinsts]
    cases pre with
    | nil => simp
    | cons i pre =>
      have := hpre i List.mem_cons_self
      simp [this.symm]

/-- What the second pass needs of an instruction: phis are done. -/
def Inst.Ready (i : Inst) : Prop := i.isPhi = true ∨ i.settled = true

theorem ready_of_inert {i : Inst} (h : i.inert = true) : i.Ready := .inr (settled_of_inert h)

/-- Without going back, the instruction settles exactly if nothing is inserted. -/
theorem ready_of_restart_none {i : Inst} {n : ℕ} (h : (i.fixup n).restartFrom = none) :
    i.Ready ↔ (i.fixup n).insts = [] := by
  rw [Inst.Ready]
  cases hphi : i.isPhi with
  | true => simp [Inst.fixup, hphi]
  | false =>
    simp only [Inst.fixup, hphi, Bool.false_eq_true, if_false, false_or] at h ⊢
    obtain ⟨hinsts, hrestart, -⟩ := fixupOperands_eq i.operands n
    rw [hrestart] at h
    have hconsts : i.consts = constsOf i.operands := rfl
    rw [Inst.settled, hphi, Bool.false_or, Bool.and_eq_true, hconsts, ← insBegin_all_iff _ n,
      ← insts_all_settled _ n, h, hinsts]
    constructor
    · rintro ⟨hhead, -⟩
      simpa using hhead.symm
    · intro hnil
      simp [hnil]

/-- Going back, it settles exactly if nothing is left out, and what is inserted settles. -/
theorem ready_of_restart_some {i : Inst} {n id : ℕ} (h : (i.fixup n).restartFrom = some id) :
    i.Ready ↔ (i.fixup n).insts.takeWhile (·.id ≠ id) = [] ∧
      ∀ j ∈ (i.fixup n).insts.dropWhile (·.id ≠ id), j.Ready := by
  cases hphi : i.isPhi with
  | true => simp [Inst.fixup, hphi] at h
  | false =>
    simp only [Inst.fixup, hphi, Bool.false_eq_true, if_false] at h ⊢
    obtain ⟨hinsts, hrestart, -⟩ := fixupOperands_eq i.operands n
    rw [hrestart] at h
    obtain ⟨hinert, hhead⟩ := fixupAll_restart h
    have hconsts : i.consts = constsOf i.operands := rfl
    rw [Inst.Ready, hphi, Inst.settled, hphi, Bool.false_or, Bool.and_eq_true, hconsts,
      ← insBegin_all_iff _ n, ← insts_all_settled _ n, hhead, hinsts]
    simp only [Bool.false_eq_true, false_or]
    refine and_congr_right fun _ => ?_
    set insts := (fixupAll n (constsOf i.operands)).insts with hdef
    have hsplit : insts.takeWhile (·.id ≠ id) ++ insts.dropWhile (·.id ≠ id) = insts :=
      List.takeWhile_append_dropWhile
    constructor
    · intro hall j hj
      exact .inr (hall j ((List.dropWhile_sublist _).subset hj))
    · intro hall j hj
      rw [← hsplit] at hj
      rcases List.mem_append.mp hj with hj | hj
      · exact settled_of_inert (hinert j hj)
      · have hpure := insts_all_isPhi (constsOf i.operands) n j ((List.dropWhile_sublist _).subset hj)
        exact (hall j hj).resolve_left (by simp [hpure])

theorem fixup_isPhi (i : Inst) (n : ℕ) : ∀ j ∈ (i.fixup n).insts, j.isPhi = false := by
  rw [Inst.fixup]
  split
  · exact fun j hj => absurd hj List.not_mem_nil
  · rw [(fixupOperands_eq i.operands n).1]
    exact insts_all_isPhi _ n

theorem fixup_fresh (i : Inst) (n : ℕ) : Fresh n (i.fixup n).insts (i.fixup n).next := by
  rw [Inst.fixup]
  split
  · exact Fresh.nil n
  · obtain ⟨hinsts, -, hnext⟩ := fixupOperands_eq i.operands n
    rw [hinsts, hnext]
    exact fixupAll_fresh ..

theorem fixup_phi {i : Inst} (h : i.isPhi = true) (n : ℕ) : (i.fixup n).insts = [] := by
  rw [Inst.fixup, if_pos h]

theorem ready_fixup {i : Inst} {n id : ℕ} (h : (i.fixup n).restartFrom = some id) :
    Inst.Ready { i with operands := (i.fixup n).operands } := by
  cases hphi : i.isPhi with
  | true => simp [Inst.fixup, hphi] at h
  | false =>
    refine ready_of_inert (List.all_eq_true.mpr ?_)
    rw [Inst.fixup, if_neg (by simp [hphi])]
    exact fixupOperands_inert i.operands n

/-! ### The second pass -/

/-- What is taken down for an instruction. -/
def valInfo (lowerType : Ty → τ) (inEntry : Bool) (i : Inst) : ValInfo τ :=
  ⟨.inst i.id, lowerType i.ty, i.isFusedAlloca inEntry⟩

theorem handleInstInBlock_values (lowerType : Ty → τ) (inEntry : Bool) (s : Numbering τ) (i : Inst) :
    (handleInstInBlock lowerType inEntry s i).numbering.values = s.values ++
      if (i.fixup s.next).restartFrom = none then
        [valInfo lowerType inEntry { i with operands := (i.fixup s.next).operands }]
      else [] := by
  rw [handleInstInBlock]
  cases (i.fixup s.next).restartFrom with
  | none => rfl
  | some id => exact (List.append_nil _).symm

/-- What the second pass over a block does: the instructions that are numbered are in order, they are all
if and only if the constants settle, the phis are the same, and what is inserted is new. -/
structure Numbers (lowerType : Ty → τ) (inEntry : Bool) (s : Numbering τ) (b b' : Block)
    (s' : Numbering τ) (numbered : Block) : Prop where
  values : s'.values = s.values ++ numbered.map (valInfo lowerType inEntry)
  sublist : numbered.Sublist b'
  all_iff : numbered = b' ↔ ∀ i ∈ b, i.Ready
  phis : SamePhis b b'
  ids : ∃ k, s'.next = s.next + k ∧ (b'.map Inst.id).Perm (List.range' s.next k ++ b.map Inst.id)

theorem SamePhis.cons {i i' : Inst} (hid : i'.id = i.id) (hphi : i'.isPhi = i.isPhi) {b b' : Block}
    (h : SamePhis b b') : SamePhis (i :: b) (i' :: b') := by
  cases hi : i.isPhi with
  | true =>
    rw [hi] at hphi
    constructor
    · rw [leadingPhis_cons_phi hi, leadingPhis_cons_phi hphi, List.map_cons, List.map_cons, hid, h.leading]
    · rw [List.filter_cons_of_pos hi, List.filter_cons_of_pos hphi, List.map_cons, List.map_cons, hid, h.all]
  | false =>
    rw [hi] at hphi
    constructor
    · rw [leadingPhis_cons hi, leadingPhis_cons hphi]
    · rw [List.filter_cons_of_neg (by simp [hphi]), List.filter_cons_of_neg (by simp [hi]), h.all]

/-- Instructions in front of one that is no phi. -/
theorem SamePhis.insert {a : Block} (ha : ∀ i ∈ a, i.isPhi = false) {i : Inst} (hi : i.isPhi = false)
    (b : Block) : SamePhis (i :: b) (a ++ i :: b) := by
  constructor
  · rw [leadingPhis_append ha (leadingPhis_cons hi b), leadingPhis_cons hi]
  · rw [List.filter_append, filter_isPhi_eq_nil ha, List.nil_append]

section Step

variable {lowerType : Ty → τ} {inEntry : Bool} {s s' : Numbering τ} {i : Inst} {rest b numbered : Block}

/-- The pass goes on behind the instruction. -/
theorem Numbers.goOn (h : Numbers lowerType inEntry (handleInstInBlock lowerType inEntry s i).numbering rest b
      s' numbered) (hnone : (i.fixup s.next).restartFrom = none) :
    Numbers lowerType inEntry s (i :: rest)
      ((i.fixup s.next).insts ++ { i with operands := (i.fixup s.next).operands } :: b) s'
      ({ i with operands := (i.fixup s.next).operands } :: numbered) := by
  set inst : Inst := { i with operands := (i.fixup s.next).operands } with hinst
  have hfresh := fixup_fresh i s.next
  constructor
  · rw [h.values, handleInstInBlock_values, if_pos hnone, List.append_assoc]
    rfl
  · exact (h.sublist.cons_cons inst).trans (List.sublist_append_right ..)
  · rw [List.forall_mem_cons, ready_of_restart_none hnone, ← h.all_iff]
    constructor
    · intro heq
      have hlen := congrArg List.length heq
      have hle := h.sublist.length_le
      rw [List.length_append, List.length_cons, List.length_cons] at hlen
      have hnil : (i.fixup s.next).insts = [] := List.length_eq_zero_iff.mp (by omega)
      exact ⟨hnil, h.sublist.eq_of_length (by rw [hnil, List.length_nil] at hlen; omega)⟩
    · rintro ⟨hnil, rfl⟩
      rw [hnil, List.nil_append]
  · have hcons : SamePhis (i :: rest) (inst :: b) := @SamePhis.cons i inst rfl rfl _ _ h.phis
    cases hphi : i.isPhi with
    | true =>
      rw [fixup_phi hphi]
      exact hcons
    | false => exact hcons.trans (@SamePhis.insert _ (fixup_isPhi i s.next) inst hphi b)
  · obtain ⟨k, hnext, hids⟩ := h.ids
    rw [handleInstInBlock_next, hfresh.2] at hnext hids
    refine ⟨(i.fixup s.next).insts.length + k, by omega, ?_⟩
    rw [List.map_append, List.map_cons, hfresh.1, ← List.range'_append_1, List.append_assoc]
    exact (((hids.cons i.id).trans List.perm_middle.symm).append_left _)

/-- The pass goes back to an instruction that was inserted. -/
theorem Numbers.goBack {id : ℕ} (h : Numbers lowerType inEntry
      (handleInstInBlock lowerType inEntry s i).numbering
      ((i.fixup s.next).insts.dropWhile (·.id ≠ id) ++
        { i with operands := (i.fixup s.next).operands } :: rest) b s' numbered)
    (hsome : (i.fixup s.next).restartFrom = some id) :
    Numbers lowerType inEntry s (i :: rest) ((i.fixup s.next).insts.takeWhile (·.id ≠ id) ++ b) s'
      numbered := by
  set inst : Inst := { i with operands := (i.fixup s.next).operands } with hinst
  set before := (i.fixup s.next).insts.takeWhile (·.id ≠ id) with hbefore
  set after := (i.fixup s.next).insts.dropWhile (·.id ≠ id) with hafter
  have hsplit : before ++ after = (i.fixup s.next).insts := List.takeWhile_append_dropWhile
  have hfresh := fixup_fresh i s.next
  have hpure := fixup_isPhi i s.next
  have hphi : i.isPhi = false := by
    by_contra hphi
    rw [Inst.fixup, if_pos (by simpa using hphi)] at hsome
    cases hsome
  rw [← hsplit] at hpure
  obtain ⟨hpre, hpost⟩ := List.forall_mem_append.mp hpure
  constructor
  · rw [h.values, handleInstInBlock_values, if_neg (by simp [hsome]), List.append_nil]
  · exact h.sublist.trans (List.sublist_append_right ..)
  · have hready : inst.Ready := ready_fixup hsome
    rw [List.forall_mem_cons, ready_of_restart_some hsome]
    have hall := h.all_iff
    rw [List.forall_mem_append, List.forall_mem_cons] at hall
    constructor
    · intro heq
      have hlen := congrArg List.length heq
      have hle := h.sublist.length_le
      rw [List.length_append] at hlen
      have hnil : before = [] := List.length_eq_zero_iff.mp (by omega)
      obtain ⟨h1, -, h2⟩ := hall.mp (h.sublist.eq_of_length (by rw [hnil, List.length_nil] at hlen; omega))
      exact ⟨⟨hnil, h1⟩, h2⟩
    · rintro ⟨⟨hnil, h1⟩, h2⟩
      rw [hbefore, hnil, List.nil_append]
      exact hall.mpr ⟨h1, hready, h2⟩
  · have hcons : SamePhis (i :: rest) (after ++ inst :: rest) :=
      (@SamePhis.cons i inst rfl rfl _ _ (.refl rest)).trans (@SamePhis.insert after hpost inst hphi rest)
    have hb := hcons.trans h.phis
    have hlead : b.leadingPhis = [] := by
      have := hb.leading
      rw [leadingPhis_cons hphi] at this
      simpa using this
    constructor
    · rw [leadingPhis_append hpre hlead, leadingPhis_cons hphi]
    · rw [List.filter_append, filter_isPhi_eq_nil hpre, List.nil_append, hb.all]
  · obtain ⟨k, hnext, hids⟩ := h.ids
    rw [handleInstInBlock_next, hfresh.2] at hnext hids
    refine ⟨(i.fixup s.next).insts.length + k, by omega, ?_⟩
    have hrange : List.range' s.next (i.fixup s.next).insts.length =
        before.map Inst.id ++ after.map Inst.id := by
      rw [← hfresh.1, ← hsplit, List.map_append]
    rw [← List.range'_append_1, hrange, List.map_append, List.append_assoc, List.append_assoc]
    refine (hids.trans ?_).append_left _
    rw [List.map_append, List.map_cons]
    rw [← List.append_assoc, ← List.append_assoc]
    exact List.perm_append_comm.append_right _

end Step

theorem numberInsts_numbers (lowerType : Ty → τ) (inEntry : Bool) (s : Numbering τ) (b : Block) :
    ∃ numbered, Numbers lowerType inEntry s b (numberInsts lowerType inEntry s b).1
      (numberInsts lowerType inEntry s b).2 numbered := by
  fun_induction numberInsts lowerType inEntry s b with
  | case1 s => exact ⟨[], by simp, .slnil, by simp, .refl _, 0, rfl, by simp⟩
  | case2 s i rest h hr b s' heq ih =>
    obtain ⟨numbered, hnum⟩ := ih
    rw [heq] at hnum
    simp only [h, handleInstInBlock_insts, handleInstInBlock_inst] at hnum ⊢
    exact ⟨_, hnum.goOn ((handleInstInBlock_restartFrom ..).symm.trans hr)⟩
  | case3 s i rest h id hr b s' heq ih =>
    obtain ⟨numbered, hnum⟩ := ih
    rw [heq] at hnum
    simp only [h, handleInstInBlock_insts, handleInstInBlock_inst] at hnum ⊢
    exact ⟨_, hnum.goBack ((handleInstInBlock_restartFrom ..).symm.trans hr)⟩

/-- Lists that each lack nothing lack nothing together. -/
theorem append_eq_iff_of_sublist {α : Type} {a a' b b' : List α} (ha : a.Sublist a') (hb : b.Sublist b') :
    a ++ b = a' ++ b' ↔ a = a' ∧ b = b' := by
  constructor
  · intro h
    have hlen := congrArg List.length h
    rw [List.length_append, List.length_append] at hlen
    have hla := ha.length_le
    have hlb := hb.length_le
    exact ⟨ha.eq_of_length (by omega), hb.eq_of_length (by omega)⟩
  · rintro ⟨rfl, rfl⟩
    rfl

/-- What the second pass over all blocks does. -/
structure NumbersAll (lowerType : Ty → τ) (s : Numbering τ) (bs bs' : List Block) (s' : Numbering τ)
    (numbered : List Inst) : Prop where
  values : s'.values.map (fun v => (v.ref, v.type)) =
    s.values.map (fun v => (v.ref, v.type)) ++ numbered.map fun i => (.inst i.id, lowerType i.ty)
  sublist : numbered.Sublist bs'.flatten
  all_iff : numbered = bs'.flatten ↔ ∀ b ∈ bs, ∀ i ∈ b, i.Ready
  phis : List.Forall₂ SamePhis bs bs'
  ids : ∃ k, s'.next = s.next + k ∧
    (bs'.flatten.map Inst.id).Perm (List.range' s.next k ++ bs.flatten.map Inst.id)

theorem numberBlocks_numbers (lowerType : Ty → τ) (inEntry : Bool) (s : Numbering τ) (bs : List Block) :
    ∃ numbered, NumbersAll lowerType s bs (numberBlocks lowerType inEntry s bs).1
      (numberBlocks lowerType inEntry s bs).2 numbered := by
  induction bs generalizing inEntry s with
  | nil =>
    refine ⟨[], ?_, .slnil, ?_, .nil, 0, rfl, ?_⟩
    · simp [numberBlocks]
    · simp [numberBlocks]
    · simp [numberBlocks]
  | cons b bs ih =>
    obtain ⟨numbered, hnum⟩ := numberInsts_numbers lowerType inEntry s b
    obtain ⟨numbered', hnum'⟩ := ih false (numberInsts lowerType inEntry s b).2
    refine ⟨numbered ++ numbered', ?_, ?_, ?_, .cons hnum.phis hnum'.phis, ?_⟩
    · rw [numberBlocks, hnum'.values, hnum.values]
      simp [valInfo]
    · exact hnum.sublist.append hnum'.sublist
    · rw [List.forall_mem_cons, ← hnum.all_iff, ← hnum'.all_iff]
      exact append_eq_iff_of_sublist hnum.sublist hnum'.sublist
    · obtain ⟨k, hnext, hids⟩ := hnum.ids
      obtain ⟨k', hnext', hids'⟩ := hnum'.ids
      rw [hnext] at hnext' hids'
      refine ⟨k + k', by rw [numberBlocks, ← Nat.add_assoc]; exact hnext', ?_⟩
      rw [numberBlocks, List.flatten_cons, List.flatten_cons, List.map_append, List.map_append,
        ← List.range'_append_1, List.append_assoc]
      refine (hids.append hids').trans ?_
      rw [List.append_assoc]
      exact (List.perm_append_comm_assoc ..).append_left _

end Tpde.Ir
