import Tpde.Llvm.NumberInsts

/-!
# Which functions are numbered

`switchFunc` gives every instruction its index if and only if the blocks of the function begin
with their phis and every constant settles (`switchFunc_numbers_iff`). An aggregate in which only
a vector with undef elements is replaced does not settle. The first pass keeps this apart from
the constants of phis, which it does away with (`firstPass_spec`).
-/

namespace Tpde.Ir

open Llvm

variable {τ : Type*}

/-! ### The first pass -/

/-- The last instruction of a block is no phi. -/
def Ends (b : Block) : Prop := ∃ t, b.getLast? = some t ∧ t.isPhi = false

/-- Instructions are inserted before an instruction that is no phi. -/
theorem insertBefore_spec {b : Block} (h : Ends b) : ∃ pre i post, b = pre ++ i :: post ∧ i.isPhi = false ∧
    ∀ insts, insertBefore b insts = pre ++ (insts ++ i :: post) := by
  have hat : ∃ i, b[insBefore b]? = some i ∧ i.isPhi = false := by
    obtain ⟨t, ht, hphi⟩ := h
    rw [List.getLast?_eq_getElem?] at ht
    rw [insBefore]
    split
    · rename_i prev k hfind
      split
      · rename_i hcmp
        have hmem := List.mem_reverse.mp (List.mem_of_find?_eq_some hfind)
        have hprev : (b.take (b.length - 1))[k]? = some prev := List.mem_zipIdx_iff_getElem?.mp hmem
        refine ⟨prev, ?_, ?_⟩
        · rw [List.getElem?_take] at hprev
          split at hprev
          · exact hprev
          · cases hprev
        · rw [Inst.isCmp] at hcmp
          rw [Inst.isPhi]
          cases hop : prev.op <;> simp_all
      · exact ⟨t, ht, hphi⟩
    · exact ⟨t, ht, hphi⟩
  obtain ⟨i, hi, hphi⟩ := hat
  obtain ⟨hlt, hget⟩ := List.getElem?_eq_some_iff.mp hi
  have hdrop : b.drop (insBefore b) = i :: b.drop (insBefore b + 1) := by
    rw [List.drop_eq_getElem_cons hlt, hget]
  refine ⟨b.take (insBefore b), i, b.drop (insBefore b + 1), ?_, hphi, fun insts => ?_⟩
  · rw [← hdrop, List.take_append_drop]
  · rw [insertBefore, hdrop, List.append_assoc]

theorem Ends.insertBefore {b : Block} (h : Ends b) (insts : List Inst) : Ends (insertBefore b insts) := by
  obtain ⟨pre, i, post, rfl, -, hinsert⟩ := insertBefore_spec h
  obtain ⟨t, ht, hphi⟩ := h
  refine ⟨t, ?_, hphi⟩
  rw [hinsert, ← ht, List.getLast?_append_of_ne_nil _ (by simp), List.getLast?_append_of_ne_nil _ (by simp),
    List.getLast?_append_of_ne_nil _ (by simp)]

theorem leadingPhis_append_cons {i : Inst} (hi : i.isPhi = false) (pre post : Block) :
    Block.leadingPhis (pre ++ i :: post) = pre.leadingPhis := by
  induction pre with
  | nil => exact leadingPhis_cons hi post
  | cons j pre ih =>
    rw [List.cons_append]
    cases hj : j.isPhi with
    | true => rw [leadingPhis_cons_phi hj, leadingPhis_cons_phi hj, ih]
    | false => rw [leadingPhis_cons hj, leadingPhis_cons hj]

theorem SamePhis.insertBefore {b : Block} (h : Ends b) {insts : List Inst}
    (hpure : ∀ i ∈ insts, i.isPhi = false) : SamePhis b (insertBefore b insts) := by
  obtain ⟨pre, i, post, rfl, hi, hinsert⟩ := insertBefore_spec h
  rw [hinsert]
  constructor
  · cases insts with
    | nil => rfl
    | cons j insts =>
      rw [List.cons_append, leadingPhis_append_cons (hpure j List.mem_cons_self), leadingPhis_append_cons hi]
  · rw [List.filter_append, List.filter_append, List.filter_append, filter_isPhi_eq_nil hpure,
      List.nil_append]

/-- The phis that lead a block stay where they are. -/
theorem getElem?_insertBefore {b : Block} (h : Ends b) (insts : List Inst) {pos : ℕ}
    (hpos : pos < b.leadingPhis.length) : (Ir.insertBefore b insts)[pos]? = b[pos]? := by
  obtain ⟨pre, i, post, rfl, hi, hinsert⟩ := insertBefore_spec h
  rw [leadingPhis_append_cons hi] at hpos
  have hlt : pos < pre.length := hpos.trans_le (List.takeWhile_sublist _).length_le
  rw [hinsert, List.getElem?_append_left hlt, List.getElem?_append_left hlt]

theorem insertBefore_perm (b : Block) (insts : List Inst) :
    (Ir.insertBefore b insts).Perm (insts ++ b) := by
  have hsplit := List.take_append_drop (insBefore b) b
  rw [Ir.insertBefore]
  refine (List.perm_append_comm.append_right _).trans ?_
  rw [List.append_assoc, hsplit]

theorem SamePhis.modify (b : Block) (pos : ℕ) {f : Inst → Inst}
    (hf : ∀ i, b[pos]? = some i → (f i).id = i.id ∧ (f i).isPhi = i.isPhi) :
    SamePhis b (b.modify pos f) := by
  induction b generalizing pos with
  | nil =>
    rw [List.modify_nil]
    exact .refl _
  | cons i b ih =>
    cases pos with
    | zero =>
      rw [List.modify_zero_cons]
      obtain ⟨hid, hphi⟩ := hf i rfl
      exact .cons hid hphi (.refl b)
    | succ pos =>
      rw [List.modify_succ_cons]
      exact .cons rfl rfl (ih pos fun j hj => hf j hj)

theorem Ends.modify {b : Block} (h : Ends b) (pos : ℕ) {f : Inst → Inst}
    (hf : ∀ i, b[pos]? = some i → (f i).isPhi = i.isPhi) : Ends (b.modify pos f) := by
  obtain ⟨t, ht, hphi⟩ := h
  rw [List.getLast?_eq_getElem?] at ht
  by_cases hpos : pos = b.length - 1
  · refine ⟨f t, ?_, ?_⟩
    · rw [List.getLast?_eq_getElem?, List.length_modify, List.getElem?_modify, ht]
      simp [hpos]
    · rw [hf t (hpos ▸ ht), hphi]
  · refine ⟨t, ?_, hphi⟩
    rw [List.getLast?_eq_getElem?, List.length_modify, List.getElem?_modify, ht]
    simp [hpos]

theorem forall₂_modify {α : Type} {R : α → α → Prop} (hrefl : ∀ x, R x x) {g : α → α} (l : List α) (n : ℕ)
    (hg : ∀ x, l[n]? = some x → R x (g x)) : List.Forall₂ R l (l.modify n g) := by
  induction l generalizing n with
  | nil =>
    rw [List.modify_nil]
    exact .nil
  | cons x l ih =>
    cases n with
    | zero =>
      rw [List.modify_zero_cons]
      exact .cons (hg x rfl) (List.forall₂_same.mpr fun y _ => hrefl y)
    | succ n =>
      rw [List.modify_succ_cons]
      exact .cons (hrefl x) (ih n hg)

theorem forall₂_trans {bs bs' bs'' : List Block} (h : List.Forall₂ SamePhis bs bs')
    (h' : List.Forall₂ SamePhis bs' bs'') : List.Forall₂ SamePhis bs bs'' := by
  induction h generalizing bs'' with
  | nil => exact h'
  | cons hb _ ih =>
    obtain _ | ⟨hb', h'⟩ := h'
    exact .cons (hb.trans hb') (ih h')

/-- A part of a list of lists that grows makes the whole grow. -/
theorem flatten_modify_perm {α : Type} {g : List α → List α} {xs : List α}
    (hg : ∀ b, (g b).Perm (xs ++ b)) {l : List (List α)} {n : ℕ} (hn : n < l.length) :
    (l.modify n g).flatten.Perm (xs ++ l.flatten) := by
  induction l generalizing n with
  | nil => cases hn
  | cons b l ih =>
    cases n with
    | zero =>
      rw [List.modify_zero_cons, List.flatten_cons, List.flatten_cons, ← List.append_assoc]
      exact (hg b).append_right _
    | succ n =>
      rw [List.modify_succ_cons, List.flatten_cons, List.flatten_cons]
      exact ((ih (Nat.lt_of_succ_lt_succ hn)).append_left b).trans (List.perm_append_comm_assoc ..)

theorem map_id_modify (b : Block) (pos : ℕ) {g : Inst → Inst}
    (hg : ∀ i, b[pos]? = some i → (g i).id = i.id) : (b.modify pos g).map Inst.id = b.map Inst.id := by
  refine List.ext_getElem? fun k => ?_
  rw [List.getElem?_map, List.getElem?_map, List.getElem?_modify]
  cases hk : b[k]? with
  | none => rfl
  | some i =>
    by_cases hpos : pos = k
    · simp [hpos, hg i (hpos ▸ hk)]
    · simp [hpos]

theorem forall₂_phisFirst {bs bs' : List Block} (h : List.Forall₂ SamePhis bs bs') :
    (∀ b ∈ bs', b.PhisFirst) ↔ ∀ b ∈ bs, b.PhisFirst := by
  induction h with
  | nil => rfl
  | cons hb _ ih => rw [List.forall_mem_cons, List.forall_mem_cons, hb.phisFirst_iff, ih]

/-! ### What the first pass keeps -/

namespace Prepass

variable {f : Func} {next : ℕ} {p : Prepass} {blk pos : ℕ}

/-- An instruction of a block. -/
def Mem (p : Prepass) (i : Inst) : Prop := ∃ b ∈ p.blocks, i ∈ b

theorem mem_of_inst? {i : Inst} (h : p.inst? blk pos = some i) : p.Mem i := by
  obtain ⟨b, hb, hi⟩ := Option.bind_eq_some_iff.mp h
  exact ⟨b, List.mem_of_getElem? hb, List.mem_of_getElem? hi⟩

theorem mem_iff_inst? {i : Inst} : p.Mem i ↔ ∃ blk pos, p.inst? blk pos = some i := by
  constructor
  · rintro ⟨b, hb, hi⟩
    obtain ⟨blk, hblk⟩ := List.mem_iff_getElem?.mp hb
    obtain ⟨pos, hpos⟩ := List.mem_iff_getElem?.mp hi
    exact ⟨blk, pos, Option.bind_eq_some_iff.mpr ⟨b, hblk, hpos⟩⟩
  · rintro ⟨blk, pos, h⟩
    exact mem_of_inst? h

/-- The instructions are inserted into a block. -/
def insert (p : Prepass) (block : ℕ) (insts : List Inst) (next : ℕ) : Prepass :=
  { p with blocks := p.blocks.modify block fun b => insertBefore b insts, next := next }

theorem inst?_modifyInst (p : Prepass) (blk pos : ℕ) (g : Inst → Inst) (blk' pos' : ℕ) :
    (p.modifyInst blk pos g).inst? blk' pos' =
      if blk' = blk ∧ pos' = pos then (p.inst? blk pos).map g else p.inst? blk' pos' := by
  rw [inst?, inst?, inst?, modifyInst, List.getElem?_modify]
  by_cases hblk : blk = blk'
  · subst hblk
    cases hb : p.blocks[blk]? with
    | none => simp
    | some b =>
      by_cases hpos : pos = pos'
      · subst hpos
        simp
      · simp [hpos, Ne.symm hpos]
  · cases hb : p.blocks[blk']? with
    | none => simp [hblk, Ne.symm hblk]
    | some b => simp [hblk, Ne.symm hblk]

/-- What holds after each step of the first pass. -/
structure Inv (f : Func) (next : ℕ) (p : Prepass) : Prop where
  phis : List.Forall₂ SamePhis f.blocks p.blocks
  ends : ∀ b ∈ p.blocks, Ends b
  ids : ∃ k, p.next = next + k ∧
    (p.blocks.flatten.map Inst.id).Perm (List.range' next k ++ f.insts.map Inst.id)
  slots {i : Inst} (h : p.Mem i) (hphi : i.isPhi = true) : i.operands.length = i.blocks.length
  incoming {i : Inst} (h : p.Mem i) (hphi : i.isPhi = true) : ∀ k ∈ i.blocks, k < p.blocks.length

namespace Inv

theorem length_eq (h : Inv f next p) : p.blocks.length = f.blocks.length := h.phis.length_eq.symm

/-- An instruction is changed, but for what it is called and whether it is a phi. -/
theorem modifyInst (h : Inv f next p) {g : Inst → Inst} (hg : ∀ i, p.inst? blk pos = some i →
      (g i).id = i.id ∧ (g i).isPhi = i.isPhi ∧ (i.isPhi = true →
        (g i).operands.length = (g i).blocks.length ∧ ∀ k ∈ (g i).blocks, k ∈ i.blocks)) :
    Inv f next (p.modifyInst blk pos g) := by
  have hblock : ∀ b, p.blocks[blk]? = some b → ∀ i, b[pos]? = some i → p.inst? blk pos = some i :=
    fun b hb i hi => Option.bind_eq_some_iff.mpr ⟨b, hb, hi⟩
  have hmem {i : Inst} (hi : (p.modifyInst blk pos g).Mem i) :
      p.Mem i ∨ ∃ j, p.inst? blk pos = some j ∧ i = g j := by
    obtain ⟨blk', pos', hi⟩ := mem_iff_inst?.mp hi
    rw [inst?_modifyInst] at hi
    split at hi
    · obtain ⟨j, hj, rfl⟩ := Option.map_eq_some_iff.mp hi
      exact .inr ⟨j, hj, rfl⟩
    · exact .inl (mem_of_inst? hi)
  have hlen : (p.modifyInst blk pos g).blocks.length = p.blocks.length := List.length_modify ..
  constructor
  · have hmodify : List.Forall₂ SamePhis p.blocks (p.modifyInst blk pos g).blocks :=
      forall₂_modify .refl _ _ fun b hb => .modify b pos fun i hi =>
        ⟨(hg i (hblock b hb i hi)).1, (hg i (hblock b hb i hi)).2.1⟩
    exact forall₂_trans h.phis hmodify
  · intro b hb
    obtain ⟨k, hk⟩ := List.mem_iff_getElem?.mp hb
    rw [Prepass.modifyInst, List.getElem?_modify] at hk
    obtain ⟨b₀, hb₀, rfl⟩ := Option.map_eq_some_iff.mp hk
    have hends := h.ends b₀ (List.mem_of_getElem? hb₀)
    split
    · rename_i heq
      exact hends.modify pos fun i hi => (hg i (hblock b₀ (heq ▸ hb₀) i hi)).2.1
    · exact hends
  · obtain ⟨k, hnext, hids⟩ := h.ids
    refine ⟨k, hnext, ?_⟩
    have hsame : (p.modifyInst blk pos g).blocks.flatten.map Inst.id = p.blocks.flatten.map Inst.id := by
      rw [List.map_flatten, List.map_flatten]
      congr 1
      refine List.ext_getElem? fun k => ?_
      rw [List.getElem?_map, List.getElem?_map, Prepass.modifyInst, List.getElem?_modify]
      cases hk : p.blocks[k]? with
      | none => rfl
      | some b =>
        by_cases hblk : blk = k
        · subst hblk
          simp [map_id_modify b pos fun i hi => (hg i (hblock b hk i hi)).1]
        · simp [hblk]
    rw [hsame]
    exact hids
  · intro i hi hphi
    obtain hi | ⟨j, hj, rfl⟩ := hmem hi
    · exact h.slots hi hphi
    · exact ((hg j hj).2.2 ((hg j hj).2.1 ▸ hphi)).1
  · intro i hi hphi k hk
    rw [hlen]
    obtain hi | ⟨j, hj, rfl⟩ := hmem hi
    · exact h.incoming hi hphi k hk
    · have hjphi := (hg j hj).2.1 ▸ hphi
      exact h.incoming (mem_of_inst? hj) hjphi k (((hg j hj).2.2 hjphi).2 k hk)

/-- Instructions that are no phis are inserted into a block. -/
theorem insert (h : Inv f next p) {block next' : ℕ} {insts : List Inst} (hblock : block < p.blocks.length)
    (hfresh : Fresh p.next insts next') (hpure : ∀ i ∈ insts, i.isPhi = false) :
    Inv f next (p.insert block insts next') := by
  have hlen : (p.insert block insts next').blocks.length = p.blocks.length := List.length_modify ..
  have hperm : (p.insert block insts next').blocks.flatten.Perm (insts ++ p.blocks.flatten) :=
    flatten_modify_perm (fun b => insertBefore_perm b insts) hblock
  have hmem {i : Inst} (hi : (p.insert block insts next').Mem i) : i ∈ insts ∨ p.Mem i := by
    have := hperm.mem_iff.mp (List.mem_flatten.mpr hi)
    exact (List.mem_append.mp this).imp id List.mem_flatten.mp
  constructor
  · refine forall₂_trans h.phis (forall₂_modify .refl _ _ fun b hb => ?_)
    exact .insertBefore (h.ends b (List.mem_of_getElem? hb)) hpure
  · intro b hb
    obtain ⟨k, hk⟩ := List.mem_iff_getElem?.mp hb
    rw [Prepass.insert, List.getElem?_modify] at hk
    obtain ⟨b₀, hb₀, rfl⟩ := Option.map_eq_some_iff.mp hk
    have hends := h.ends b₀ (List.mem_of_getElem? hb₀)
    split
    · exact hends.insertBefore insts
    · exact hends
  · obtain ⟨k, hnext, hids⟩ := h.ids
    refine ⟨k + insts.length, ?_, (hperm.map Inst.id).trans ?_⟩
    · rw [Prepass.insert, hfresh.2, hnext, Nat.add_assoc]
    · rw [List.map_append, hfresh.1, hnext, ← List.range'_append_1, List.append_assoc]
      exact (hids.append_left _).trans (List.perm_append_comm_assoc ..)
  · intro i hi hphi
    obtain hi | hi := hmem hi
    · rw [hpure i hi] at hphi
      cases hphi
    · exact h.slots hi hphi
  · intro i hi hphi k hk
    rw [hlen]
    obtain hi | hi := hmem hi
    · rw [hpure i hi] at hphi
      cases hphi
    · exact h.incoming hi hphi k hk

end Inv

/-! ### One incoming value -/

/-- The phis that lead a block of the function. -/
def lead (f : Func) (blk : ℕ) : ℕ := (f.blocks.getD blk []).leadingPhis.length

theorem Inv.leadingPhis (h : Inv f next p) {b : Block} (hb : p.blocks[blk]? = some b) :
    b.leadingPhis.length = lead f blk := by
  obtain ⟨hlt, rfl⟩ := List.getElem?_eq_some_iff.mp hb
  have hlt' : blk < f.blocks.length := h.length_eq ▸ hlt
  have hsame := (List.forall₂_iff_get.mp h.phis).2 blk hlt' hlt
  have hlen := congrArg List.length hsame.leading
  rw [List.length_map, List.length_map, List.get_eq_getElem, List.get_eq_getElem] at hlen
  rw [hlen, lead, List.getD_eq_getElem _ _ hlt']

/-- What leads a block stays where it is when instructions are inserted. -/
theorem Inv.inst?_insert (h : Inv f next p) (block : ℕ) (insts : List Inst) (next' : ℕ)
    (hpos : pos < lead f blk) : (p.insert block insts next').inst? blk pos = p.inst? blk pos := by
  rw [inst?, inst?, Prepass.insert, List.getElem?_modify]
  cases hb : p.blocks[blk]? with
  | none => rfl
  | some b =>
    by_cases hblk : block = blk
    · simp [hblk, getElem?_insertBefore (h.ends b (List.mem_of_getElem? hb)) insts
        (h.leadingPhis hb ▸ hpos)]
    · simp [hblk]

/-- A phi that leads a block is there. -/
theorem Inv.exists_phi (h : Inv f next p) (hpos : pos < lead f blk) :
    ∃ phi, p.inst? blk pos = some phi ∧ phi.isPhi = true := by
  have hblk : blk < f.blocks.length := by
    by_contra hge
    rw [lead, List.getD_eq_default _ _ (not_lt.mp hge)] at hpos
    cases hpos
  have hlt' : blk < p.blocks.length := h.length_eq ▸ hblk
  have hb := List.getElem?_eq_getElem hlt'
  have hlen := h.leadingPhis hb
  set b := p.blocks[blk]
  have hlt : pos < b.leadingPhis.length := hlen ▸ hpos
  have hprefix : b.leadingPhis <+: b := List.takeWhile_prefix _
  have hget := List.prefix_iff_getElem?.mp hprefix pos hlt
  refine ⟨b.leadingPhis[pos], Option.bind_eq_some_iff.mpr ⟨b, hb, hget⟩, ?_⟩
  exact List.mem_takeWhile_imp (List.getElem_mem hlt)

theorem insertBefore_nil (b : Block) : insertBefore b [] = b := by
  rw [insertBefore, List.append_nil, List.take_append_drop]

theorem insert_nil (p : Prepass) (block : ℕ) : p.insert block [] p.next = p := by
  rw [Prepass.insert]
  simp only [insertBefore_nil]
  rw [show (fun b : Block => b) = id from rfl, List.modify_id]

/-- A constant that is not replaced changes nothing. -/
theorem fixupConstant_of_repl_none {c : Const} {n : ℕ} (h : (fixupConstant n c).repl = none) :
    (fixupConstant n c).insts = [] ∧ (fixupConstant n c).next = n ∧ (Operand.const c).inert = true := by
  have hreplaced : c.replaced = false := by
    rw [← repl_isSome c n, h]
    rfl
  have hinsts : (fixupConstant n c).insts = [] := by
    rw [insts_eq_nil]
    by_contra hinserts
    have := Const.replaced_of_inserts (by simpa using hinserts)
    rw [hreplaced] at this
    cases this
  refine ⟨hinsts, ?_, Const.inert_of_not_replaced hreplaced⟩
  rw [(fixupConstant_fresh c n).2, hinsts]
  rfl

/-- What `fixupIncoming` does to a phi. -/
theorem fixupIncoming_cases {phi : Inst} (hphi : p.inst? blk pos = some phi)
    (hslots : phi.operands.length = phi.blocks.length) (k : ℕ) :
    (p.fixupIncoming blk pos k = p ∧ ∀ o, phi.operands[k]? = some o → o.inert = true) ∨
    ∃ c block, phi.operands[k]? = some (.const c) ∧ phi.blocks[k]? = some block ∧
      p.fixupIncoming blk pos k = (p.insert block (fixupConstant p.next c).insts
        (fixupConstant p.next c).next).modifyInst blk pos (Inst.setIncomingValueForBlock block
          ((fixupConstant p.next c).repl.getD (.const c))) := by
  rw [fixupIncoming, hphi]
  dsimp only
  split
  · rename_i c block hc hblock
    split
    · cases hrepl : (fixupConstant p.next c).repl with
      | some repl => exact .inr ⟨c, block, hc, hblock, by rw [hrepl]; rfl⟩
      | none =>
        obtain ⟨hinsts, hnext, hinert⟩ := fixupConstant_of_repl_none hrepl
        refine .inl ⟨?_, fun o ho => ?_⟩
        · rw [hinsts, hnext]
          exact insert_nil p block
        · obtain rfl := Option.some.inj (hc.symm.trans ho)
          exact hinert
    · rename_i hneed
      refine .inl ⟨rfl, fun o ho => ?_⟩
      obtain rfl := Option.some.inj (hc.symm.trans ho)
      have hinert := getD_inert c 0
      rwa [fixupConstant_plain (by simpa using hneed)] at hinert
  · rename_i hno
    refine .inl ⟨rfl, fun o ho => ?_⟩
    cases o with
    | const c =>
      obtain ⟨hlt, -⟩ := List.getElem?_eq_some_iff.mp ho
      exact absurd (List.getElem?_eq_getElem (hslots ▸ hlt)) (hno c _ ho)
    | _ => rfl

/-! ### One phi -/

end Prepass

/-- A phi settles if and only if its incoming values do. -/
theorem settled_phi {i : Inst} (h : i.isPhi = true) :
    i.settled = true ↔ ∀ (j : ℕ) c, i.operands[j]? = some (.const c) → c.settled = true := by
  rw [Inst.settled, h, Bool.true_or, Bool.true_and, Const.settledAll_iff]
  constructor
  · intro hall j c hj
    exact hall c (List.mem_filterMap.mpr ⟨.const c, List.mem_of_getElem? hj, rfl⟩)
  · intro hall c hc
    obtain ⟨o, ho, hco⟩ := List.mem_filterMap.mp hc
    obtain ⟨j, hj⟩ := List.mem_iff_getElem?.mp ho
    cases o with
    | const d =>
      obtain rfl := Option.some.inj hco
      exact hall j d hj
    | _ => cases hco

theorem settled_of_operand_inert {c : Const} (h : (Operand.const c).inert = true) : c.settled = true :=
  Const.settled_of_clean (Operand.clean_of_inert h)

theorem operands_setIncoming {i : Inst} (h : i.operands.length = i.blocks.length) (b : ℕ) (v : Operand)
    (j : ℕ) : (i.setIncomingValueForBlock b v).operands[j]? =
      i.operands[j]?.map fun o => if i.blocks[j]? = some b then v else o := by
  rw [Inst.setIncomingValueForBlock, List.getElem?_zipWith]
  cases ho : i.operands[j]? with
  | none => rfl
  | some o =>
    obtain ⟨hlt, -⟩ := List.getElem?_eq_some_iff.mp ho
    simp [List.getElem?_eq_getElem (h ▸ hlt : j < i.blocks.length)]

theorem length_operands_setIncoming {i : Inst} (h : i.operands.length = i.blocks.length) (b : ℕ)
    (v : Operand) : (i.setIncomingValueForBlock b v).operands.length = i.operands.length := by
  rw [Inst.setIncomingValueForBlock, List.length_zipWith, h, Nat.min_self]

theorem Inst.MultiEdge.setIncoming {i : Inst} (hi : i.MultiEdge)
    (h : i.operands.length = i.blocks.length) (b : ℕ) (v : Operand) :
    (i.setIncomingValueForBlock b v).MultiEdge := by
  intro j k hjk hj
  rw [blocks_setIncoming] at hjk hj
  rw [operands_setIncoming h, operands_setIncoming h, hi j k hjk hj, hjk]

/-- The constant of a block settles, together with what is left of the phi, if and only if the phi does. -/
theorem settled_setIncoming {i : Inst} (hphi : i.isPhi = true) (hi : i.MultiEdge)
    (h : i.operands.length = i.blocks.length) {k b : ℕ} {c : Const} (hc : i.operands[k]? = some (.const c))
    (hb : i.blocks[k]? = some b) {repl : Operand} (hrepl : repl.inert = true) :
    i.settled = true ↔ c.settled = true ∧ (i.setIncomingValueForBlock b repl).settled = true := by
  rw [settled_phi hphi, settled_phi (i := i.setIncomingValueForBlock b repl) hphi]
  constructor
  · intro hall
    refine ⟨hall k c hc, fun j d hj => ?_⟩
    rw [operands_setIncoming h] at hj
    obtain ⟨o, ho, hd⟩ := Option.map_eq_some_iff.mp hj
    split at hd
    · rw [hd] at hrepl
      exact settled_of_operand_inert hrepl
    · exact hall j d (hd ▸ ho)
  · rintro ⟨hcs, hall⟩ j d hj
    by_cases hjb : i.blocks[j]? = some b
    · obtain ⟨hlt, -⟩ := List.getElem?_eq_some_iff.mp hjb
      have hsame := hi j k (hjb.trans hb.symm) hlt
      rw [hj, hc] at hsame
      obtain rfl : d = c := by simpa using hsame
      exact hcs
    · refine hall j d ?_
      rw [operands_setIncoming h, hj]
      simp [hjb]

/-- The sort permutes the incoming values, with their blocks. -/
theorem sortPhiEntries_perm (addr : ℕ → ℕ) (i : Inst) : ∃ σ : Equiv.Perm (Fin i.operands.length),
    (i.sortPhiEntries addr).operands = List.ofFn (fun k => i.operands[σ k]) ∧
      (i.sortPhiEntries addr).blocks = List.ofFn (fun k => i.blocks.getD (σ k) 0) := by
  set phi : PHINode ℕ (Operand × ℕ) i.operands.length :=
    { blocks := fun k => addr (i.blocks.getD k 0), values := fun k => (i.operands[k], i.blocks.getD k 0) }
    with hphi
  have hprepare : ∃ σ, phi.prepare = phi.permute σ := by
    rw [PHINode.prepare]
    split
    · obtain ⟨σ, hσ, -⟩ := phi.sortPhiEntries_spec
      exact ⟨σ, hσ⟩
    · exact ⟨1, rfl⟩
  obtain ⟨σ, hσ⟩ := hprepare
  refine ⟨σ, ?_, ?_⟩
  · rw [Inst.sortPhiEntries, ← hphi, hσ]
    rfl
  · rw [Inst.sortPhiEntries, ← hphi, hσ]
    rfl

theorem length_sortPhiEntries (addr : ℕ → ℕ) (i : Inst) :
    (i.sortPhiEntries addr).operands.length = (i.sortPhiEntries addr).blocks.length := by
  rw [Inst.sortPhiEntries, List.length_ofFn, List.length_ofFn]

theorem mem_blocks_sortPhiEntries (addr : ℕ → ℕ) {i : Inst} (h : i.operands.length = i.blocks.length) {b : ℕ}
    (hb : b ∈ (i.sortPhiEntries addr).blocks) : b ∈ i.blocks := by
  obtain ⟨σ, -, hblocks⟩ := sortPhiEntries_perm addr i
  rw [hblocks] at hb
  obtain ⟨k, rfl⟩ := List.mem_ofFn.mp hb
  have hlt : (σ k).val < i.blocks.length := h ▸ (σ k).isLt
  rw [List.getD_eq_getElem _ _ hlt]
  exact List.getElem_mem hlt

theorem Inst.MultiEdge.sortPhiEntries {i : Inst} (hi : i.MultiEdge)
    (h : i.operands.length = i.blocks.length) (addr : ℕ → ℕ) : (i.sortPhiEntries addr).MultiEdge := by
  obtain ⟨σ, hoperands, hblocks⟩ := sortPhiEntries_perm addr i
  intro j k hjk hj
  rw [hblocks] at hjk hj
  rw [List.length_ofFn] at hj
  rw [hoperands]
  by_cases hk : k < i.operands.length
  · rw [List.getElem?_ofFn, dif_pos hj, List.getElem?_ofFn, dif_pos hk] at hjk ⊢
    have hj' : (σ ⟨j, hj⟩).val < i.blocks.length := h ▸ (σ ⟨j, hj⟩).isLt
    have hk' : (σ ⟨k, hk⟩).val < i.blocks.length := h ▸ (σ ⟨k, hk⟩).isLt
    rw [List.getD_eq_getElem _ _ hj', List.getD_eq_getElem _ _ hk'] at hjk
    have hsame := hi (σ ⟨j, hj⟩) (σ ⟨k, hk⟩)
      (by rw [List.getElem?_eq_getElem hj', List.getElem?_eq_getElem hk', hjk]) hj'
    rwa [List.getElem?_eq_getElem (σ ⟨j, hj⟩).isLt, List.getElem?_eq_getElem (σ ⟨k, hk⟩).isLt] at hsame
  · rw [List.getElem?_ofFn, dif_pos hj, List.getElem?_ofFn, dif_neg hk] at hjk
    cases hjk

theorem sortPhiEntries_inert (addr : ℕ → ℕ) {i : Inst} (h : i.inert = true) :
    (i.sortPhiEntries addr).inert = true := by
  obtain ⟨σ, hoperands, -⟩ := sortPhiEntries_perm addr i
  rw [Inst.inert, hoperands, List.all_eq_true]
  intro o ho
  obtain ⟨k, rfl⟩ := List.mem_ofFn.mp ho
  exact List.all_eq_true.mp h _ (List.getElem_mem _)

namespace Prepass

variable {f : Func} {next : ℕ} {p p' p'' : Prepass} {blk pos : ℕ}

/-- All instructions settle. -/
def Settled (p : Prepass) : Prop := ∀ i, p.Mem i → i.settled = true

/-- What each step keeps, besides: the instructions settle if and only if those of the function do. -/
structure Settling (f : Func) (next : ℕ) (p : Prepass) : Prop extends Inv f next p where
  settled : p.Settled ↔ ∀ i ∈ f.insts, i.settled = true
  multi_edge {blk pos : ℕ} {i : Inst} (hpos : pos < lead f blk) (hi : p.inst? blk pos = some i) : i.MultiEdge

/-- What a step does to other phis than the one it is about. -/
structure Step (f : Func) (blk pos : ℕ) (p p' : Prepass) : Prop where
  others {blk' pos' : ℕ} (hpos : pos' < lead f blk') (hne : ¬(blk' = blk ∧ pos' = pos)) :
    p'.inst? blk' pos' = p.inst? blk' pos'
  phiEnds : p'.phiEnds = p.phiEnds

theorem Step.refl (p : Prepass) : Step f blk pos p p := ⟨fun _ _ => rfl, rfl⟩

theorem Step.trans (h : Step f blk pos p p') (h' : Step f blk pos p' p'') : Step f blk pos p p'' :=
  ⟨fun hpos hne => (h'.others hpos hne).trans (h.others hpos hne), h'.phiEnds.trans h.phiEnds⟩

theorem step_modifyInst (p : Prepass) (g : Inst → Inst) : Step f blk pos p (p.modifyInst blk pos g) :=
  ⟨fun _ hne => by rw [inst?_modifyInst, if_neg hne], rfl⟩

/-- Where instructions are inserted, they are all that is new. -/
theorem mem_insert {block next' : ℕ} (hblock : block < p.blocks.length) {insts : List Inst} {i : Inst} :
    (p.insert block insts next').Mem i ↔ i ∈ insts ∨ p.Mem i := by
  have hperm : (p.insert block insts next').blocks.flatten.Perm (insts ++ p.blocks.flatten) :=
    flatten_modify_perm (fun b => insertBefore_perm b insts) hblock
  have hiff := hperm.mem_iff (a := i)
  rwa [List.mem_append, List.mem_flatten, List.mem_flatten] at hiff

theorem mem_modifyInst {g : Inst → Inst} {phi i : Inst} (hphi : p.inst? blk pos = some phi)
    (hi : (p.modifyInst blk pos g).Mem i) : i = g phi ∨ p.Mem i := by
  obtain ⟨blk', pos', hi⟩ := mem_iff_inst?.mp hi
  rw [inst?_modifyInst] at hi
  split at hi
  · rw [hphi] at hi
    exact .inl (Option.some.inj hi).symm
  · exact .inr (mem_of_inst? hi)

theorem mem_modifyInst_self {g : Inst → Inst} {phi : Inst} (hphi : p.inst? blk pos = some phi) :
    (p.modifyInst blk pos g).Mem (g phi) := by
  refine mem_iff_inst?.mpr ⟨blk, pos, ?_⟩
  rw [inst?_modifyInst, if_pos ⟨rfl, rfl⟩, hphi]
  rfl

theorem mem_modifyInst_other {g : Inst → Inst} {phi i : Inst} (hphi : p.inst? blk pos = some phi)
    (hi : p.Mem i) (hne : i ≠ phi) : (p.modifyInst blk pos g).Mem i := by
  obtain ⟨blk', pos', hi⟩ := mem_iff_inst?.mp hi
  refine mem_iff_inst?.mpr ⟨blk', pos', ?_⟩
  rw [inst?_modifyInst, if_neg, hi]
  rintro ⟨rfl, rfl⟩
  exact hne (Option.some.inj (hi.symm.trans hphi))

/-- An instruction is changed so that it settles if and only if it did. -/
theorem settled_modifyInst {g : Inst → Inst} {phi : Inst} (hphi : p.inst? blk pos = some phi)
    (hg : (g phi).settled = phi.settled) : (p.modifyInst blk pos g).Settled ↔ p.Settled := by
  constructor
  · intro hall i hi
    by_cases hne : i = phi
    · rw [hne, ← hg]
      exact hall _ (mem_modifyInst_self hphi)
    · exact hall i (mem_modifyInst_other hphi hi hne)
  · intro hall i hi
    obtain rfl | hi := mem_modifyInst hphi hi
    · rw [hg]
      exact hall phi (mem_of_inst? hphi)
    · exact hall i hi

/-- Instructions are inserted, and what they settle of a phi is taken from it. -/
theorem settled_insert_modifyInst {block next' : ℕ} (hblock : block < p.blocks.length) {insts : List Inst}
    (hpure : ∀ i ∈ insts, i.isPhi = false) {phi : Inst} (hphi : p.inst? blk pos = some phi)
    (hphi' : (p.insert block insts next').inst? blk pos = some phi) (hisPhi : phi.isPhi = true)
    {g : Inst → Inst}
    (hg : phi.settled = true ↔ (∀ i ∈ insts, i.settled = true) ∧ (g phi).settled = true) :
    ((p.insert block insts next').modifyInst blk pos g).Settled ↔ p.Settled := by
  constructor
  · intro hall
    have hinsts : ∀ i ∈ insts, i.settled = true := by
      intro i hi
      refine hall i (mem_modifyInst_other hphi' ((mem_insert hblock).mpr (.inl hi)) ?_)
      -- what is inserted is no phi
      rintro rfl
      rw [hpure i hi] at hisPhi
      cases hisPhi
    have hphiSettled : phi.settled = true := hg.mpr ⟨hinsts, hall _ (mem_modifyInst_self hphi')⟩
    intro i hi
    by_cases hne : i = phi
    · rwa [hne]
    · exact hall i (mem_modifyInst_other hphi' ((mem_insert hblock).mpr (.inr hi)) hne)
  · intro hall i hi
    obtain ⟨hinsts, hrest⟩ := hg.mp (hall phi (mem_of_inst? hphi))
    obtain rfl | hi := mem_modifyInst hphi' hi
    · exact hrest
    · obtain hi | hi := (mem_insert hblock).mp hi
      · exact hinsts i hi
      · exact hall i hi

/-- One incoming value: it is done afterwards, and what was done before stays so. -/
theorem Settling.fixupIncoming (h : Settling f next p) (hpos : pos < lead f blk) {phi : Inst}
    (hphi : p.inst? blk pos = some phi) (hisPhi : phi.isPhi = true) (k : ℕ) :
    Settling f next (p.fixupIncoming blk pos k) ∧ Step f blk pos p (p.fixupIncoming blk pos k) ∧
      ∃ phi', (p.fixupIncoming blk pos k).inst? blk pos = some phi' ∧ phi'.isPhi = true ∧
        phi'.operands.length = phi.operands.length ∧ ∀ j o, phi'.operands[j]? = some o →
          (j = k ∨ ∀ o, phi.operands[j]? = some o → o.inert = true) → o.inert = true := by
  have hslots := h.slots (mem_of_inst? hphi) hisPhi
  have hmulti := h.multi_edge hpos hphi
  obtain ⟨heq, hinert⟩ | ⟨c, block, hc, hblock, heq⟩ := fixupIncoming_cases hphi hslots k
  · rw [heq]
    refine ⟨h, .refl p, phi, hphi, hisPhi, rfl, fun j o ho hj => ?_⟩
    obtain rfl | hj := hj
    · exact hinert o ho
    · exact hj o ho
  · set fixup := fixupConstant p.next c with hfixup
    set repl := fixup.repl.getD (.const c) with hrepl
    have hreplInert : repl.inert = true := getD_inert c p.next
    have hlt : block < p.blocks.length :=
      h.incoming (mem_of_inst? hphi) hisPhi block (List.mem_of_getElem? hblock)
    have hpure : ∀ i ∈ fixup.insts, i.isPhi = false := insts_isPhi c p.next
    have hinsert := h.toInv.insert hlt (fixupConstant_fresh c p.next) hpure
    have hphi' : (p.insert block fixup.insts fixup.next).inst? blk pos = some phi := by
      rw [h.inst?_insert block fixup.insts fixup.next hpos, hphi]
    rw [heq]
    have hsplit := settled_setIncoming hisPhi hmulti hslots hc hblock hreplInert
    rw [← insts_settled c p.next] at hsplit
    have hlength := length_operands_setIncoming hslots block repl
    have hother : Step f blk pos p (p.insert block fixup.insts fixup.next) :=
      ⟨fun hpos' _ => h.inst?_insert block fixup.insts fixup.next hpos', rfl⟩
    have hstep := hother.trans (step_modifyInst _ (Inst.setIncomingValueForBlock block repl))
    have hget : ((p.insert block fixup.insts fixup.next).modifyInst blk pos
        (Inst.setIncomingValueForBlock block repl)).inst? blk pos =
          some (phi.setIncomingValueForBlock block repl) := by
      rw [inst?_modifyInst, if_pos ⟨rfl, rfl⟩, hphi']
      rfl
    refine ⟨⟨hinsert.modifyInst fun i hi => ?_, ?_, ?_⟩, hstep, _, hget, hisPhi, hlength, ?_⟩
    · obtain rfl := Option.some.inj (hphi'.symm.trans hi)
      exact ⟨rfl, rfl, fun _ => ⟨hlength.trans hslots, fun _ hb => hb⟩⟩
    · rw [settled_insert_modifyInst hlt hpure hphi hphi' hisPhi hsplit, h.settled]
    · intro blk' pos' i hpos' hi
      by_cases hsame : blk' = blk ∧ pos' = pos
      · obtain ⟨rfl, rfl⟩ := hsame
        obtain rfl := Option.some.inj (hget.symm.trans hi)
        exact hmulti.setIncoming hslots block repl
      · rw [hstep.others hpos' hsame] at hi
        exact h.multi_edge hpos' hi
    · intro j o ho hj
      rw [operands_setIncoming hslots] at ho
      obtain ⟨o', ho', rfl⟩ := Option.map_eq_some_iff.mp ho
      split
      · exact hreplInert
      · rename_i hne
        obtain rfl | hj := hj
        · exact absurd hblock hne
        · exact hj o' ho'

/-- All incoming values of a phi, up to one. -/
theorem Settling.fold_fixupIncoming (h : Settling f next p) (hpos : pos < lead f blk) {phi : Inst}
    (hphi : p.inst? blk pos = some phi) (hisPhi : phi.isPhi = true) (n : ℕ) :
    Settling f next ((List.range n).foldl (Prepass.fixupIncoming blk pos) p) ∧
      Step f blk pos p ((List.range n).foldl (Prepass.fixupIncoming blk pos) p) ∧
      ∃ phi', ((List.range n).foldl (Prepass.fixupIncoming blk pos) p).inst? blk pos = some phi' ∧
        phi'.isPhi = true ∧ phi'.operands.length = phi.operands.length ∧
        ∀ j < n, ∀ o, phi'.operands[j]? = some o → o.inert = true := by
  induction n with
  | zero => exact ⟨h, .refl p, phi, hphi, hisPhi, rfl, nofun⟩
  | succ n ih =>
    obtain ⟨hsettling, hstep, phi₁, hphi₁, hisPhi₁, hlength₁, hinert₁⟩ := ih
    rw [List.range_succ, List.foldl_append, List.foldl_cons, List.foldl_nil]
    obtain ⟨hsettling', hstep', phi₂, hphi₂, hisPhi₂, hlength₂, hinert₂⟩ :=
      hsettling.fixupIncoming hpos hphi₁ hisPhi₁ n
    refine ⟨hsettling', hstep.trans hstep', phi₂, hphi₂, hisPhi₂, hlength₂.trans hlength₁, ?_⟩
    intro j hj o ho
    refine hinert₂ j o ho ?_
    obtain hj | rfl := Nat.lt_succ_iff_lt_or_eq.mp hj
    · exact .inr (hinert₁ j hj)
    · exact .inl rfl

/-- A phi that is done is sorted. -/
theorem Settling.sortPhiEntries (h : Settling f next p) (hpos : pos < lead f blk) {phi : Inst}
    (hphi : p.inst? blk pos = some phi) (hisPhi : phi.isPhi = true) (hinert : phi.inert = true)
    (addr : ℕ → ℕ) : Settling f next (p.modifyInst blk pos (Inst.sortPhiEntries addr)) := by
  have hslots := h.slots (mem_of_inst? hphi) hisPhi
  refine ⟨h.toInv.modifyInst fun i hi => ?_, ?_, ?_⟩
  · obtain rfl := Option.some.inj (hphi.symm.trans hi)
    exact ⟨rfl, rfl, fun _ => ⟨length_sortPhiEntries addr phi, fun _ hb =>
      mem_blocks_sortPhiEntries addr hslots hb⟩⟩
  · rw [settled_modifyInst hphi, h.settled]
    rw [settled_of_inert (sortPhiEntries_inert addr hinert), settled_of_inert hinert]
  · intro blk' pos' i hpos' hi
    rw [inst?_modifyInst] at hi
    split at hi
    · rw [hphi] at hi
      obtain rfl := Option.some.inj hi
      exact (h.multi_edge hpos hphi).sortPhiEntries hslots addr
    · exact h.multi_edge hpos' hi

/-- The phi at a place is done. -/
def Done (p : Prepass) (blk pos : ℕ) : Prop := ∃ phi, p.inst? blk pos = some phi ∧ phi.inert = true

theorem Settling.fixupPhi (h : Settling f next p) (hpos : pos < lead f blk) (addr : ℕ → ℕ) :
    Settling f next (p.fixupPhi addr blk pos) ∧ Step f blk pos p (p.fixupPhi addr blk pos) ∧
      (p.fixupPhi addr blk pos).Done blk pos := by
  obtain ⟨phi, hphi, hisPhi⟩ := h.exists_phi hpos
  rw [Prepass.fixupPhi, hphi]
  dsimp only [Option.map_some, Option.getD_some]
  obtain ⟨hsettling, hstep, phi', hphi', hisPhi', hlength, hinert⟩ :=
    h.fold_fixupIncoming hpos hphi hisPhi phi.operands.length
  have hphiInert : phi'.inert = true := by
    refine List.all_eq_true.mpr fun o ho => ?_
    obtain ⟨j, hj⟩ := List.mem_iff_getElem?.mp ho
    obtain ⟨hlt, -⟩ := List.getElem?_eq_some_iff.mp hj
    exact hinert j (hlength ▸ hlt) o hj
  refine ⟨hsettling.sortPhiEntries hpos hphi' hisPhi' hphiInert addr,
    hstep.trans (step_modifyInst _ _), _, ?_, sortPhiEntries_inert addr hphiInert⟩
  rw [inst?_modifyInst, if_pos ⟨rfl, rfl⟩, hphi']
  rfl

/-- Steps for the first phis of a block. -/
theorem Settling.fold_fixupPhi (h : Settling f next p) (addr : ℕ → ℕ) {n : ℕ} (hn : n ≤ lead f blk) :
    Settling f next ((List.range n).foldl (Prepass.fixupPhi addr blk) p) ∧
      ((List.range n).foldl (Prepass.fixupPhi addr blk) p).phiEnds = p.phiEnds ∧
      (∀ pos < n, ((List.range n).foldl (Prepass.fixupPhi addr blk) p).Done blk pos) ∧
      ∀ blk' ≠ blk, ∀ pos < lead f blk',
        ((List.range n).foldl (Prepass.fixupPhi addr blk) p).inst? blk' pos = p.inst? blk' pos := by
  induction n with
  | zero => exact ⟨h, rfl, nofun, fun _ _ _ _ => rfl⟩
  | succ n ih =>
    obtain ⟨hsettling, hends, hdone, hothers⟩ := ih (Nat.le_of_succ_le hn)
    rw [List.range_succ, List.foldl_append, List.foldl_cons, List.foldl_nil]
    obtain ⟨hsettling', hstep, hdone'⟩ := hsettling.fixupPhi (Nat.lt_of_succ_le hn) addr
    refine ⟨hsettling', hstep.phiEnds.trans hends, fun pos hpos => ?_, fun blk' hblk pos hpos => ?_⟩
    · obtain hlt | rfl := Nat.lt_succ_iff_lt_or_eq.mp hpos
      · obtain ⟨phi, hphi, hinert⟩ := hdone pos hlt
        refine ⟨phi, ?_, hinert⟩
        rw [hstep.others (hpos.trans_le hn) (by omega), hphi]
      · exact hdone'
    · rw [hstep.others hpos (by simp [hblk]), hothers blk' hblk pos hpos]

/-- The last phi that leads a block of the function. -/
def phiEnd (f : Func) (blk : ℕ) : Option ℕ := ((f.blocks.getD blk []).leadingPhis.map Inst.id).getLast?

theorem Inv.leadingPhis_id (h : Inv f next p) (hblk : blk < f.blocks.length) :
    (p.blocks.getD blk []).leadingPhis.map Inst.id = (f.blocks.getD blk []).leadingPhis.map Inst.id := by
  have hlt : blk < p.blocks.length := h.length_eq ▸ hblk
  have hsame := (List.forall₂_iff_get.mp h.phis).2 blk hblk hlt
  rw [List.getD_eq_getElem _ _ hblk, List.getD_eq_getElem _ _ hlt]
  exact hsame.leading

theorem Settling.fixupPhis (h : Settling f next p) (addr : ℕ → ℕ) (hblk : blk < f.blocks.length) :
    Settling f next (p.fixupPhis addr blk) ∧ (p.fixupPhis addr blk).phiEnds = p.phiEnds ++ [phiEnd f blk] ∧
      (∀ pos < lead f blk, (p.fixupPhis addr blk).Done blk pos) ∧
      ∀ blk' ≠ blk, ∀ pos < lead f blk', (p.fixupPhis addr blk).inst? blk' pos = p.inst? blk' pos := by
  have hids := h.leadingPhis_id hblk
  have hlen : (p.blocks.getD blk []).leadingPhis.length = lead f blk := by
    rw [lead, ← List.length_map (f := Inst.id), hids, List.length_map]
  obtain ⟨hsettling, hends, hdone, hothers⟩ := h.fold_fixupPhi addr (le_refl (lead f blk))
  rw [Prepass.fixupPhis]
  dsimp only
  rw [hlen]
  refine ⟨⟨⟨hsettling.phis, hsettling.ends, hsettling.ids, hsettling.slots, hsettling.incoming⟩,
    hsettling.settled, hsettling.multi_edge⟩, ?_, hdone, hothers⟩
  rw [hends, ← List.getLast?_map, hids, phiEnd]

/-- The first pass: all phis that lead a block are done. -/
theorem firstPass_spec (h : Settling f next ⟨f.blocks, [], next⟩) (addr : ℕ → ℕ) :
    Settling f next (firstPass addr f next) ∧
      (firstPass addr f next).phiEnds = (List.range f.blocks.length).map (phiEnd f) ∧
      ∀ blk < f.blocks.length, ∀ pos < lead f blk, (firstPass addr f next).Done blk pos := by
  suffices hfold : ∀ n ≤ f.blocks.length,
      Settling f next ((List.range n).foldl (Prepass.fixupPhis addr) ⟨f.blocks, [], next⟩) ∧
        ((List.range n).foldl (Prepass.fixupPhis addr) ⟨f.blocks, [], next⟩).phiEnds =
          (List.range n).map (phiEnd f) ∧
        ∀ blk < n, ∀ pos < lead f blk,
          ((List.range n).foldl (Prepass.fixupPhis addr) ⟨f.blocks, [], next⟩).Done blk pos from
    hfold _ le_rfl
  intro n hn
  induction n with
  | zero => exact ⟨h, rfl, nofun⟩
  | succ n ih =>
    obtain ⟨hsettling, hends, hdone⟩ := ih (Nat.le_of_succ_le hn)
    rw [List.range_succ, List.foldl_append, List.foldl_cons, List.foldl_nil]
    obtain ⟨hsettling', hends', hdone', hothers⟩ := hsettling.fixupPhis addr (Nat.lt_of_succ_le hn)
    refine ⟨hsettling', ?_, fun blk hblk pos hpos => ?_⟩
    · rw [hends', hends, List.map_append, List.map_cons, List.map_nil]
    · obtain hlt | rfl := Nat.lt_succ_iff_lt_or_eq.mp hblk
      · obtain ⟨phi, hphi, hinert⟩ := hdone blk hlt pos hpos
        exact ⟨phi, (hothers blk hlt.ne pos hpos).trans hphi, hinert⟩
      · exact hdone' pos hpos

end Prepass

/-! ### The whole function -/

/-- Every argument and every instruction of the function afterwards has one index, in order, and the phis
of a block are told from its other instructions. -/
structure Numbered (lowerType : Ty → τ) (args : List Ty) (r : Switched τ) : Prop where
  values : r.numbering.values.map (fun v => (v.ref, v.type)) =
    args.zipIdx.map (fun x => (.arg x.2, lowerType x.1)) ++
      r.blocks.flatten.map fun i => (.inst i.id, lowerType i.ty)
  nodup : (r.blocks.flatten.map Inst.id).Nodup
  phis (k : ℕ) : r.blockPhis k = (r.blocks.getD k []).filter Inst.isPhi
  insts (k : ℕ) : r.blockInsts k = (r.blocks.getD k []).filter fun i => !i.isPhi

/-- The index of an instruction is its own. -/
theorem Numbered.existsUnique {lowerType : Ty → τ} {args : List Ty} {r : Switched τ}
    (h : Numbered lowerType args r) {i : Inst} (hi : i ∈ r.blocks.flatten) :
    ∃! n : ℕ, (r.numbering.values.map ValInfo.ref)[n]? = some (ValueRef.inst i.id) := by
  have hrefs : r.numbering.values.map ValInfo.ref =
      args.zipIdx.map (fun x => ValueRef.arg x.2) ++ (r.blocks.flatten.map Inst.id).map ValueRef.inst := by
    have heq := congrArg (List.map Prod.fst) h.values
    rw [List.map_append] at heq
    simpa only [List.map_map, Function.comp_def] using heq
  have hargs : (args.zipIdx.map fun x => ValueRef.arg x.2) = (List.range args.length).map ValueRef.arg := by
    rw [List.range_eq_range', ← List.zipIdx_map_snd 0 args, List.map_map]
    rfl
  have hnodup : (r.numbering.values.map ValInfo.ref).Nodup := by
    rw [hrefs, hargs, List.nodup_append]
    refine ⟨List.nodup_range.map fun _ _ => ValueRef.arg.inj, h.nodup.map fun _ _ => ValueRef.inst.inj, ?_⟩
    intro a ha b hb hab
    obtain ⟨_, -, rfl⟩ := List.mem_map.mp ha
    obtain ⟨_, -, rfl⟩ := List.mem_map.mp hb
    cases hab
  have hmem : ValueRef.inst i.id ∈ r.numbering.values.map ValInfo.ref := by
    rw [hrefs]
    exact List.mem_append_right _ (List.mem_map_of_mem (List.mem_map_of_mem hi))
  obtain ⟨n, hn⟩ := List.mem_iff_getElem?.mp hmem
  refine ⟨n, hn, fun m hm => ?_⟩
  obtain ⟨hlt, -⟩ := List.getElem?_eq_some_iff.mp hm
  exact (List.getElem?_inj hlt hnodup).mp (hm.trans hn.symm)

/-- A function is numbered if its blocks begin with their phis and its constants settle. -/
structure Func.Settles (f : Func) : Prop where
  phisFirst : ∀ b ∈ f.blocks, b.PhisFirst
  settled : ∀ i ∈ f.insts, i.settled = true

namespace Func.WellFormed

variable {f : Func} {next : ℕ}

open Prepass

theorem ends (h : f.WellFormed next) {b : Block} (hb : b ∈ f.blocks) : Ends b := by
  obtain ⟨body, t, rfl, ht, -⟩ := h.terminated b hb
  refine ⟨t, List.getLast?_concat, ?_⟩
  rw [Inst.isTerminator] at ht
  rw [Inst.isPhi]
  cases hop : t.op <;> simp_all

/-- Nothing is done yet. -/
theorem settling (h : f.WellFormed next) : Settling f next ⟨f.blocks, [], next⟩ := by
  have hmem {i : Inst} : Mem ⟨f.blocks, [], next⟩ i ↔ i ∈ f.insts := List.mem_flatten.symm
  refine ⟨⟨?_, fun b hb => h.ends hb, ⟨0, rfl, by simp [insts]⟩, ?_, ?_⟩, ?_, ?_⟩
  · exact List.forall₂_same.mpr fun b _ => .refl b
  · exact fun hi hphi => h.slots _ (hmem.mp hi) hphi
  · exact fun hi hphi => h.incoming_lt _ (hmem.mp hi) hphi
  · exact ⟨fun hall i hi => hall i (hmem.mpr hi), fun hall i hi => hall i (hmem.mp hi)⟩
  · intro blk pos i hpos hi
    obtain ⟨b, hb, hi⟩ := Option.bind_eq_some_iff.mp hi
    obtain ⟨hlt, rfl⟩ := List.getElem?_eq_some_iff.mp hb
    rw [lead, List.getD_eq_getElem _ _ hlt] at hpos
    have hprefix : Block.leadingPhis f.blocks[blk] <+: f.blocks[blk] := List.takeWhile_prefix _
    have hget := List.prefix_iff_getElem?.mp hprefix pos hpos
    obtain rfl := Option.some.inj (hget.symm.trans hi)
    exact h.multi_edge _ (List.getElem_mem hlt) _ (List.getElem_mem hpos)

/-- The new ids are distinct from those of the function. -/
theorem nodup_ids (h : f.WellFormed next) {ids ids' : List ℕ} {k k' next' : ℕ} (hnext : next' = next + k)
    (hids : ids.Perm (List.range' next k ++ f.insts.map Inst.id))
    (hids' : ids'.Perm (List.range' next' k' ++ ids)) : ids'.Nodup := by
  have hperm : ids'.Perm (List.range' next (k + k') ++ f.insts.map Inst.id) := by
    refine (hids'.trans (hids.append_left _)).trans ?_
    rw [hnext, ← List.range'_append_1, List.append_assoc]
    exact List.perm_append_comm_assoc ..
  rw [hperm.nodup_iff, List.nodup_append]
  refine ⟨List.nodup_range', h.nodup, fun a ha b hb hab => ?_⟩
  obtain ⟨i, hi, rfl⟩ := List.mem_map.mp hb
  have hlt := h.id_lt i hi
  have hge := (List.mem_range'_1.mp ha).1
  omega

/-- What the first pass leaves settles where the function does, if its blocks begin with their phis. -/
theorem ready_iff (h : f.WellFormed next) (hphis : ∀ b ∈ f.blocks, b.PhisFirst) (addr : ℕ → ℕ) :
    (∀ b ∈ (firstPass addr f next).blocks, ∀ i ∈ b, i.Ready) ↔ ∀ i ∈ f.insts, i.settled = true := by
  obtain ⟨hsettling, -, hdone⟩ := firstPass_spec h.settling addr
  rw [← hsettling.settled]
  constructor
  · rintro hall i ⟨b, hb, hi⟩
    obtain hphi | hi := hall b hb i hi
    · obtain ⟨blk, hlt, rfl⟩ := List.mem_iff_getElem.mp hb
      have hlt' : blk < f.blocks.length := hsettling.length_eq ▸ hlt
      have hsame := (List.forall₂_iff_get.mp hsettling.phis).2 blk hlt' hlt
      have hfirst := hsame.phisFirst_iff.mpr (hphis _ (List.getElem_mem hlt'))
      have hlead := List.mem_filter.mpr ⟨hi, hphi⟩
      rw [List.get_eq_getElem] at hfirst
      rw [← leadingPhis_eq_filter.mpr hfirst] at hlead
      obtain ⟨pos, hpos, rfl⟩ := List.mem_iff_getElem.mp hlead
      have hget := List.getElem?_eq_getElem hlt
      obtain ⟨phi, hphi', hinert⟩ := hdone blk hlt' pos (hsettling.leadingPhis hget ▸ hpos)
      have hprefix : Block.leadingPhis (firstPass addr f next).blocks[blk] <+:
        (firstPass addr f next).blocks[blk] := List.takeWhile_prefix _
      rw [inst?, hget, Option.bind_some, List.prefix_iff_getElem?.mp hprefix pos hpos] at hphi'
      obtain rfl := Option.some.inj hphi'
      exact settled_of_inert hinert
    · exact hi
  · exact fun hall b hb i hi => .inr (hall i ⟨b, hb, hi⟩)

end Func.WellFormed

/-- Up to `phi_end` there are the phis that lead a block. -/
theorem blockPhis_eq {f : Func} {r : Switched τ} (hnodup : (r.blocks.flatten.map Inst.id).Nodup)
    (hends : r.phiEnds = (List.range f.blocks.length).map (Prepass.phiEnd f))
    (hphis : List.Forall₂ SamePhis f.blocks r.blocks) (k : ℕ) :
    r.blockPhis k = (r.blocks.getD k []).leadingPhis ∧
      r.blockInsts k = (r.blocks.getD k []).dropWhile Inst.isPhi := by
  rw [Switched.blockPhis, Switched.blockInsts, hends]
  by_cases hk : k < f.blocks.length
  · have hk' : k < r.blocks.length := hphis.length_eq ▸ hk
    have hsame := (List.forall₂_iff_get.mp hphis).2 k hk hk'
    rw [List.getElem?_map, List.getElem?_range hk, Option.map_some, Option.join_some, Prepass.phiEnd,
      List.getD_eq_getElem _ _ hk, List.getD_eq_getElem _ _ hk']
    have hleading := hsame.leading
    rw [List.get_eq_getElem, List.get_eq_getElem] at hleading
    rw [← hleading, List.getLast?_map]
    have hblock : (r.blocks[k].map Inst.id).Nodup :=
      hnodup.sublist ((List.sublist_flatten_of_mem (List.getElem_mem hk')).map _)
    cases hlast : (Block.leadingPhis r.blocks[k]).getLast? with
    | some last =>
      dsimp only [Option.map_some]
      rw [splitAfter_leading hblock hlast]
      exact ⟨rfl, rfl⟩
    | none =>
      have hnil := List.getLast?_eq_none_iff.mp hlast
      have hsplit := List.takeWhile_append_dropWhile (p := Inst.isPhi) (l := r.blocks[k])
      rw [show r.blocks[k].takeWhile Inst.isPhi = [] from hnil, List.nil_append] at hsplit
      exact ⟨hnil.symm, hsplit.symm⟩
  · have hk' : ¬k < r.blocks.length := hphis.length_eq ▸ hk
    rw [List.getElem?_eq_none (by simpa using hk), List.getD_eq_default _ _ (not_lt.mp hk')]
    exact ⟨rfl, rfl⟩

/-- **Every instruction is numbered** exactly once, in order, if and only if the blocks of the function begin
with their phis and the constants of all instructions settle. -/
theorem switchFunc_numbers_iff {f : Func} {next : ℕ} (h : f.WellFormed next) (lowerType : Ty → τ)
    (addr : ℕ → ℕ) :
    Numbered lowerType f.args (switchFunc lowerType addr f next) ↔ f.Settles := by
  obtain ⟨hsettling, hends, -⟩ := Prepass.firstPass_spec h.settling addr
  obtain ⟨numbered, hnum⟩ := numberBlocks_numbers lowerType true
    ⟨argValues lowerType f.args, [], false, (firstPass addr f next).next⟩ (firstPass addr f next).blocks
  set r := switchFunc lowerType addr f next with hr
  have hblocks : r.blocks = (numberBlocks lowerType true
    ⟨argValues lowerType f.args, [], false, (firstPass addr f next).next⟩
      (firstPass addr f next).blocks).1 := rfl
  have hvalues : r.numbering.values.map (fun v => (v.ref, v.type)) =
      f.args.zipIdx.map (fun x => (.arg x.2, lowerType x.1)) ++
        numbered.map fun i => (.inst i.id, lowerType i.ty) := by
    refine hnum.values.trans (congrArg (· ++ _) ?_)
    simp [argValues]
  have hphis : List.Forall₂ SamePhis f.blocks r.blocks := forall₂_trans hsettling.phis hnum.phis
  have hnodup : (r.blocks.flatten.map Inst.id).Nodup := by
    obtain ⟨k, hnext, hids⟩ := hsettling.ids
    obtain ⟨k', -, hids'⟩ := hnum.ids
    exact h.nodup_ids hnext hids hids'
  have hall : numbered = r.blocks.flatten ↔ ∀ b ∈ (firstPass addr f next).blocks, ∀ i ∈ b, i.Ready :=
    hnum.all_iff
  have hsplit := blockPhis_eq hnodup hends hphis
  have hfirst := forall₂_phisFirst hphis
  constructor
  · intro hn
    have hphisFirst : ∀ b ∈ f.blocks, b.PhisFirst := by
      rw [← hfirst]
      intro b hb
      obtain ⟨k, hk, rfl⟩ := List.mem_iff_getElem.mp hb
      have := hn.phis k
      rw [(hsplit k).1, List.getD_eq_getElem _ _ hk] at this
      exact leadingPhis_eq_filter.mp this
    refine ⟨hphisFirst, (h.ready_iff hphisFirst addr).mp (hall.mp ?_)⟩
    have heq := List.append_cancel_left (hvalues.symm.trans hn.values)
    have hlen := congrArg List.length heq
    rw [List.length_map, List.length_map] at hlen
    exact hnum.sublist.eq_of_length hlen
  · rintro ⟨hphisFirst, hsettled⟩
    have hreach := hall.mpr ((h.ready_iff hphisFirst addr).mpr hsettled)
    have hblock (k : ℕ) : Block.PhisFirst (r.blocks.getD k []) := by
      by_cases hk : k < r.blocks.length
      · rw [List.getD_eq_getElem _ _ hk]
        exact hfirst.mpr hphisFirst _ (List.getElem_mem hk)
      · rw [List.getD_eq_default _ _ (not_lt.mp hk)]
        exact List.Pairwise.nil
    refine ⟨by rw [hvalues, hreach], hnodup, fun k => ?_, fun k => ?_⟩
    · rw [(hsplit k).1, leadingPhis_eq_filter.mpr (hblock k)]
    · rw [(hsplit k).2, dropWhile_eq_filter (hblock k)]

/-- `<4 x i32> <1, undef, 1, 1>`. -/
def undefVector : Const :=
  .vector (.int 32) [.data (.scalar (.int 32)) (.scalar 1), .undef (.scalar (.int 32)),
    .data (.scalar (.int 32)) (.scalar 1), .data (.scalar (.int 32)) (.scalar 1)]

/-- A store of an aggregate with that vector, to the address that is the argument. -/
def storeUndef : Func where
  args := [.scalar .ptr]
  retTy := .void
  blocks := [[
    ⟨0, .effect 0, .void, [.const (.aggregate (.aggregate [.vector 4 (.int 32)]) [undefVector]), .arg 0], []⟩,
    ⟨1, .terminator 0, .void, [], []⟩]]

theorem storeUndef_wellFormed : storeUndef.WellFormed 2 where
  nodup := by decide
  id_lt := by decide
  operand_lt := by decide
  terminated b hb := by
    obtain rfl := List.mem_singleton.mp hb
    exact ⟨[_], _, rfl, rfl, by decide⟩
  slots := by decide
  incoming_lt := by decide
  multi_edge b hb := by
    obtain rfl := List.mem_singleton.mp hb
    exact nofun

/-- The instruction that puts the vector into the aggregate gets no index. -/
theorem switchFunc_storeUndef : storeUndef.WellFormed 2 ∧
    ¬ Numbered (fun _ => ()) storeUndef.args (switchFunc (fun _ => ()) id storeUndef 2) := by
  refine ⟨storeUndef_wellFormed, fun h => ?_⟩
  have hlen := congrArg List.length h.values
  revert hlen
  decide +kernel

/-- A branch to a block with a phi of constant expressions, which stores an aggregate with an expression. -/
def storeExpr : Func where
  args := [.scalar .ptr]
  retTy := .void
  blocks := [
    [⟨0, .pure (.cmp 0), .scalar (.int 1), [.arg 0, .arg 0], []⟩,
      ⟨1, .terminator 0, .void, [.inst 0], [1, 1]⟩],
    [⟨2, .phi, .scalar .ptr, [.const (.expr (.other 0) (.scalar .ptr) [.global 0]),
        .const (.expr (.other 0) (.scalar .ptr) [.global 0])], [0, 0]⟩,
      ⟨3, .effect 0, .void, [.const (.aggregate (.aggregate [.scalar .ptr, .vector 4 (.int 32)])
        [.expr (.other 1) (.scalar .ptr) [.expr (.other 0) (.scalar .ptr) [.global 0]], undefVector]),
        .inst 2], []⟩,
      ⟨4, .terminator 1, .void, [], []⟩]]

theorem storeExpr_wellFormed : storeExpr.WellFormed 5 where
  nodup := by decide
  id_lt := by decide
  operand_lt := by decide
  terminated b hb := by
    obtain rfl | rfl := by simpa [storeExpr] using hb
    · exact ⟨[_], _, rfl, rfl, by decide⟩
    · exact ⟨[_, _], _, rfl, rfl, by decide⟩
  slots := by decide
  incoming_lt := by decide
  multi_edge b hb i hi j k hjk hj := by
    obtain rfl | rfl := by simpa [storeExpr] using hb
    · cases hi
    · obtain rfl := List.mem_singleton.mp hi
      match j, k with
      | 0, 0 | 0, 1 | 1, 0 | 1, 1 => rfl
      | 0, k + 2 | 1, k + 2 => cases hjk
      | j + 2, k => exact absurd hj (by simp)

/-- The expressions get their indices, those inside of them too. -/
theorem switchFunc_numbers_iff_expr :
    Numbered (fun _ => ()) storeExpr.args (switchFunc (fun _ => ()) id storeExpr 5) :=
  (switchFunc_numbers_iff storeExpr_wellFormed (fun _ => ()) id).mpr ⟨by decide, by decide⟩

end Tpde.Ir
