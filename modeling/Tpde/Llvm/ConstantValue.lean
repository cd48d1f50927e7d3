import Tpde.Llvm.FixupConstant

/-!
# What a constant and its instructions yield

Constants, operands and the operations of `fixup_constant` have values. Undef and poison have
any value of their type, each time anew, so that a constant may have several
(`Const.Denotes`). The instructions that stand for a constant can be executed, and what they
yield is a value of the constant, whatever the registers held before
(`fixupConstant_correct`).
-/

namespace Tpde.Ir

/-! ### Values of types -/

mutual
/-- The value is of the type. -/
def Ty.Has : Ty → Value → Prop
  | .void, v => v = .seq []
  | .scalar _, v => ∃ bits, v = .scalar bits
  | .vector n _, v => ∃ vs, v = .seq vs ∧ vs.length = n ∧ ∀ v ∈ vs, ∃ bits, v = .scalar bits
  | .aggregate tys, v => ∃ vs, v = .seq vs ∧ Ty.HasAll tys vs
def Ty.HasAll : List Ty → List Value → Prop
  | [], vs => vs = []
  | ty :: tys, vs => ∃ v rest, vs = v :: rest ∧ ty.Has v ∧ Ty.HasAll tys rest
end

mutual
/-- Zero of a type. -/
def Ty.zero : Ty → Value
  | .void => .seq []
  | .scalar _ => .scalar 0
  | .vector n _ => .seq (List.replicate n (.scalar 0))
  | .aggregate tys => .seq (Ty.zeroAll tys)
def Ty.zeroAll : List Ty → List Value
  | [] => []
  | ty :: tys => ty.zero :: Ty.zeroAll tys
end

mutual
theorem Ty.has_zero : ∀ ty : Ty, ty.Has ty.zero
  | .void => rfl
  | .scalar _ => ⟨0, rfl⟩
  | .vector _ _ => ⟨_, rfl, List.length_replicate, fun _ hv => ⟨0, List.eq_of_mem_replicate hv⟩⟩
  | .aggregate tys => ⟨_, rfl, Ty.hasAll_zeroAll tys⟩
theorem Ty.hasAll_zeroAll : ∀ tys : List Ty, Ty.HasAll tys (Ty.zeroAll tys)
  | [] => rfl
  | ty :: tys => ⟨_, _, rfl, ty.has_zero, Ty.hasAll_zeroAll tys⟩
end

theorem Ty.HasAll.length {tys : List Ty} {vs : List Value} (h : Ty.HasAll tys vs) :
    vs.length = tys.length := by
  induction tys generalizing vs with
  | nil => rw [show vs = [] from h, List.length_nil, List.length_nil]
  | cons ty tys ih =>
    obtain ⟨v, rest, rfl, -, hrest⟩ := h
    rw [List.length_cons, List.length_cons, ih hrest]

/-! ### Values of constants -/

/-- What arguments, globals, special constants and operations yield, apart from the operations that fill
vectors and aggregates. -/
structure Semantics where
  argValue : ℕ → Value
  globalValue : ℕ → Value
  specialValue : Special → ℕ → Value
  compute : PureOp → List Value → Value

/-- An element is replaced. -/
def Value.setElement (w : Value) (idx : ℕ) (v : Value) : Value :=
  match w with
  | .seq ws => .seq (ws.set idx v)
  | .scalar bits => .scalar bits

variable (sem : Semantics)

/-- What an operation yields. -/
def PureOp.eval (op : PureOp) (vs : List Value) : Value :=
  match op, vs with
  | .insertElement, [w, v, .scalar idx] => w.setElement idx v
  | .insertValue idx, [w, v] => w.setElement idx v
  | op, vs => sem.compute op vs

mutual
/-- The constant may have the value. -/
def Const.Denotes : Const → Value → Prop
  | .data _ v, w => w = v
  | .undef ty, w => ty.Has w
  | .global g, w => w = sem.globalValue g
  | .special kind k, w => w = sem.specialValue kind k
  | .expr op _ ops, w => ∃ vs, Const.DenoteAll ops vs ∧ w = op.eval sem vs
  | .vector _ els, w => ∃ vs, Const.DenoteAll els vs ∧ w = .seq vs
  | .aggregate _ els, w => ∃ vs, Const.DenoteAll els vs ∧ w = .seq vs
def Const.DenoteAll : List Const → List Value → Prop
  | [], ws => ws = []
  | c :: cs, ws => ∃ v vs, ws = v :: vs ∧ c.Denotes v ∧ Const.DenoteAll cs vs
end

mutual
/-- The constant is of the type. -/
def Const.HasTy : Const → Ty → Prop
  | .data ty v, ty' => ty' = ty ∧ ty.Has v
  | .undef ty, ty' => ty' = ty
  | .global _, ty' => ty' = .scalar .ptr
  | .special _ _, ty' => ty' = .scalar .ptr
  | .expr _ ty ops, ty' => ty' = ty ∧ ∃ tys, Const.HaveTys ops tys
  | .vector s els, ty' => ty' = .vector els.length s ∧ Const.HaveTys els (els.map fun _ => .scalar s)
  | .aggregate ty els, ty' => ty' = ty ∧ ∃ tys, ty = .aggregate tys ∧ Const.HaveTys els tys
def Const.HaveTys : List Const → List Ty → Prop
  | [], tys => tys = []
  | c :: cs, tys => ∃ ty rest, tys = ty :: rest ∧ c.HasTy ty ∧ Const.HaveTys cs rest
end

/-! ### Executions -/

/-- The operand may have the value, with what the instructions before have yielded. -/
def Operand.Denotes (regs : ℕ → Value) : Operand → Value → Prop
  | .const c, w => c.Denotes sem w
  | .arg i, w => w = sem.argValue i
  | .inst id, w => w = regs id
  | .other _, _ => False

/-- The instructions are executed in order. -/
inductive Exec : (ℕ → Value) → List Inst → (ℕ → Value) → Prop
  | nil (regs : ℕ → Value) : Exec regs [] regs
  | cons {regs regs' : ℕ → Value} {i : Inst} {is : List Inst} {op : PureOp} {vs : List Value}
    (hop : i.op = .pure op) (hvs : List.Forall₂ (Operand.Denotes sem regs) i.operands vs)
    (h : Exec (Function.update regs i.id (op.eval sem vs)) is regs') : Exec regs (i :: is) regs'

/-- The instructions with ids below `n` have yielded the same. -/
def Agree (n : ℕ) (regs regs' : ℕ → Value) : Prop := ∀ id < n, regs' id = regs id

/-- The operand stands for the constant: it has values, and they are values of the constant. -/
structure Stands (regs : ℕ → Value) (n : ℕ) (o : Operand) (c : Const) : Prop where
  below : o.below n = true
  exists_value : ∃ v, o.Denotes sem regs v
  value {v : Value} (h : o.Denotes sem regs v) : c.Denotes sem v

variable {sem}

namespace Exec

theorem append {regs regs' regs'' : ℕ → Value} {is js : List Inst} (h : Exec sem regs is regs')
    (h' : Exec sem regs' js regs'') : Exec sem regs (is ++ js) regs'' := by
  induction h with
  | nil regs => exact h'
  | cons hop hvs _ ih => exact .cons hop hvs (ih h')

theorem of_append {regs regs'' : ℕ → Value} {is js : List Inst} (h : Exec sem regs (is ++ js) regs'') :
    ∃ regs', Exec sem regs is regs' ∧ Exec sem regs' js regs'' := by
  induction is generalizing regs with
  | nil => exact ⟨regs, .nil regs, h⟩
  | cons i is ih =>
    cases h with
    | cons hop hvs h =>
      obtain ⟨regs', his, hjs⟩ := ih h
      exact ⟨regs', .cons hop hvs his, hjs⟩

/-- Only the instructions that are executed yield anything new. -/
theorem agree {n m : ℕ} {regs regs' : ℕ → Value} {is : List Inst} (h : Exec sem regs is regs')
    (hfresh : Fresh n is m) : Agree n regs regs' := by
  have hids : ∀ i ∈ is, n ≤ i.id := fun i hi => (hfresh.mem hi).1
  clear hfresh
  induction h with
  | nil regs => exact fun _ _ => rfl
  | @cons regs regs' i is op vs hop hvs h ih =>
    intro id hid
    have hne : id ≠ i.id := by
      have := hids i List.mem_cons_self
      omega
    rw [ih (fun j hj => hids j (List.mem_cons_of_mem _ hj)) id hid, Function.update_of_ne hne]

end Exec

theorem Agree.trans {n m : ℕ} {regs regs' regs'' : ℕ → Value} (h : Agree n regs regs')
    (h' : Agree m regs' regs'') (hle : n ≤ m) : Agree n regs regs'' :=
  fun id hid => (h' id (hid.trans_le hle)).trans (h id hid)

/-- An operand has the values that it had, as long as its instruction is not executed again. -/
theorem Operand.denotes_congr {n : ℕ} {regs regs' : ℕ → Value} (h : Agree n regs regs') {o : Operand}
    (ho : o.below n = true) {v : Value} : o.Denotes sem regs' v ↔ o.Denotes sem regs v := by
  cases o with
  | const c => exact Iff.rfl
  | arg i => exact Iff.rfl
  | inst id => rw [Operand.Denotes, Operand.Denotes, h id (of_decide_eq_true ho)]
  | other k => exact Iff.rfl

theorem Operand.below_mono {n m : ℕ} (h : n ≤ m) {o : Operand} (ho : o.below n = true) :
    o.below m = true := by
  cases o with
  | inst id => exact decide_eq_true ((of_decide_eq_true ho).trans_le h)
  | _ => rfl

theorem Stands.mono {n m : ℕ} {regs regs' : ℕ → Value} {o : Operand} {c : Const}
    (h : Stands sem regs n o c) (hagree : Agree n regs regs') (hle : n ≤ m) : Stands sem regs' m o c where
  below := Operand.below_mono hle h.below
  exists_value := h.exists_value.imp fun _ => (Operand.denotes_congr hagree h.below).mpr
  value hv := h.value ((Operand.denotes_congr hagree h.below).mp hv)

theorem Const.denoteAll_iff {cs : List Const} {vs : List Value} :
    Const.DenoteAll sem cs vs ↔ List.Forall₂ (Const.Denotes sem) cs vs := by
  induction cs generalizing vs with
  | nil => simp [Const.DenoteAll]
  | cons c cs ih =>
    rw [Const.DenoteAll, List.forall₂_cons_left_iff]
    simp only [ih]
    constructor
    · rintro ⟨v, vs, heq, hv, hvs⟩
      exact ⟨v, vs, hv, hvs, heq⟩
    · rintro ⟨v, vs, hv, hvs, heq⟩
      exact ⟨v, vs, heq, hv, hvs⟩

theorem Const.HaveTys.hasTy {cs : List Const} {tys : List Ty} (h : Const.HaveTys cs tys) {c : Const}
    (hc : c ∈ cs) : ∃ ty, c.HasTy ty := by
  induction cs generalizing tys with
  | nil => cases hc
  | cons d cs ih =>
    obtain ⟨ty, rest, rfl, hd, hcs⟩ := h
    cases hc with
    | head => exact ⟨ty, hd⟩
    | tail _ hc => exact ih hcs hc

theorem Const.HaveTys.length {cs : List Const} {tys : List Ty} (h : Const.HaveTys cs tys) :
    tys.length = cs.length := by
  induction cs generalizing tys with
  | nil => rw [show tys = [] from h, List.length_nil, List.length_nil]
  | cons c cs ih =>
    obtain ⟨ty, rest, rfl, -, hcs⟩ := h
    rw [List.length_cons, List.length_cons, ih hcs]

theorem Const.exists_denoteAll {cs : List Const} (h : ∀ c ∈ cs, ∃ v, c.Denotes sem v) :
    ∃ vs, Const.DenoteAll sem cs vs := by
  induction cs with
  | nil => exact ⟨[], rfl⟩
  | cons c cs ih =>
    obtain ⟨v, hv⟩ := h c List.mem_cons_self
    obtain ⟨vs, hvs⟩ := ih fun c hc => h c (List.mem_cons_of_mem _ hc)
    exact ⟨v :: vs, v, vs, rfl, hv, hvs⟩

/-- A constant that has a type has a value. -/
theorem Const.exists_denotes {c : Const} {ty : Ty} (h : c.HasTy ty) : ∃ v, c.Denotes sem v := by
  induction c using Const.induction_parts generalizing ty with
  | data ty v => exact ⟨v, rfl⟩
  | undef ty' => exact ⟨_, ty'.has_zero⟩
  | global g => exact ⟨_, rfl⟩
  | special kind k => exact ⟨_, rfl⟩
  | expr op ty' ops ih =>
    obtain ⟨-, tys, hops⟩ := h
    obtain ⟨vs, hvs⟩ := exists_denoteAll fun c hc => (hops.hasTy hc).elim fun _ => ih c hc
    exact ⟨_, vs, hvs, rfl⟩
  | vector s els ih =>
    obtain ⟨vs, hvs⟩ := exists_denoteAll fun c hc => (h.2.hasTy hc).elim fun _ => ih c hc
    exact ⟨_, vs, hvs, rfl⟩
  | aggregate ty' els ih =>
    obtain ⟨-, tys, -, hels⟩ := h
    obtain ⟨vs, hvs⟩ := exists_denoteAll fun c hc => (hels.hasTy hc).elim fun _ => ih c hc
    exact ⟨_, vs, hvs, rfl⟩

/-! ### Elements filled in one by one -/

section Chain

variable {create : ℕ → ℕ → Operand → Operand → Inst}

/-- The instruction that is created replaces an element. -/
structure Sets (sem : Semantics) (create : ℕ → ℕ → Operand → Operand → Inst) : Prop where
  id (id idx : ℕ) (repl el : Operand) : (create id idx repl el).id = id
  op (id idx : ℕ) (repl el : Operand) : ∃ op, (create id idx repl el).op = .pure op ∧
    ∀ (regs : ℕ → Value) (w : Value),
      (∃ vs, List.Forall₂ (Operand.Denotes sem regs) (create id idx repl el).operands vs ∧
        w = op.eval sem vs) ↔ ∃ u v, repl.Denotes sem regs u ∧ el.Denotes sem regs v ∧ w = u.setElement idx v

theorem sets_insertElementInst (ty : Ty) : Sets sem (insertElementInst ty) where
  id _ _ _ _ := rfl
  op id idx repl el := by
    refine ⟨_, rfl, fun regs w => ?_⟩
    constructor
    · rintro ⟨vs, hvs, rfl⟩
      obtain _ | ⟨hu, hvs⟩ := hvs
      obtain _ | ⟨hv, hvs⟩ := hvs
      obtain _ | ⟨hidx, hvs⟩ := hvs
      obtain _ | _ := hvs
      rw [show _ = _ from hidx]
      exact ⟨_, _, hu, hv, rfl⟩
    · rintro ⟨u, v, hu, hv, rfl⟩
      exact ⟨[u, v, .scalar idx], .cons hu (.cons hv (.cons rfl .nil)), rfl⟩

theorem sets_insertValueInst (ty : Ty) : Sets sem (insertValueInst ty) where
  id _ _ _ _ := rfl
  op id idx repl el := by
    refine ⟨_, rfl, fun regs w => ?_⟩
    constructor
    · rintro ⟨vs, hvs, rfl⟩
      obtain _ | ⟨hu, hvs⟩ := hvs
      obtain _ | ⟨hv, hvs⟩ := hvs
      obtain _ | _ := hvs
      exact ⟨_, _, hu, hv, rfl⟩
    · rintro ⟨u, v, hu, hv, rfl⟩
      exact ⟨[u, v], .cons hu (.cons hv .nil), rfl⟩

theorem lastOf_cons (repl : Operand) (i : Inst) (is : List Inst) :
    lastOf repl (i :: is) = lastOf (.inst i.id) is := by
  cases is with
  | nil => rfl
  | cons j is => simp only [lastOf, List.getLast?_cons, Option.map_some, Option.getD_some]

/-- The operand has values, all with `n` elements, the first of which are values of the constants. -/
structure Filled (sem : Semantics) (regs : ℕ → Value) (n : ℕ) (cs : List Const) (o : Operand) : Prop where
  exists_value : ∃ w, o.Denotes sem regs w
  value {w : Value} (h : o.Denotes sem regs w) : ∃ vs, w = .seq vs ∧ vs.length = n ∧
    List.Forall₂ (Const.Denotes sem) cs (vs.take cs.length)

/-- One more element is filled in. -/
theorem Filled.step (hset : Sets sem create) {regs : ℕ → Value} {n idx next : ℕ} {done : List Const}
    {repl el : Operand} {c : Const} {op : PureOp} {vs : List Value} (h : Filled sem regs n done repl)
    (hel : ∀ v, el.Denotes sem regs v → c.Denotes sem v) (hidx : done.length = idx) (hn : idx < n)
    (hop : (create next idx repl el).op = .pure op)
    (hvs : List.Forall₂ (Operand.Denotes sem regs) (create next idx repl el).operands vs) :
    Filled sem (Function.update regs (create next idx repl el).id (op.eval sem vs)) n (done ++ [c])
      (.inst next) := by
  obtain ⟨op', hop', heval⟩ := hset.op next idx repl el
  obtain rfl : op = op' := by
    rw [hop'] at hop
    exact (Opcode.pure.inj hop).symm
  obtain ⟨u, v, hu, hv, hw⟩ := (heval regs _).mp ⟨vs, hvs, rfl⟩
  obtain ⟨us, rfl, hlen, hus⟩ := h.value hu
  rw [hset.id, hw]
  refine ⟨⟨_, rfl⟩, fun {w} hw' => ⟨us.set idx v, ?_, by rw [List.length_set, hlen], ?_⟩⟩
  · rw [show w = _ from hw', Function.update_self]
    rfl
  · have hlt : idx < us.length := hlen ▸ hn
    have htake : (us.set idx v).take (idx + 1) = us.take idx ++ [v] := by
      have hle : (us.take idx).length = idx := List.length_take_of_le hlt.le
      rw [List.set_eq_take_append_cons_drop, if_pos hlt, List.take_append, hle,
        List.take_of_length_le (by omega), Nat.add_sub_cancel_left, List.take_succ_cons, List.take_zero]
    rw [List.length_append, List.length_singleton, hidx, htake]
    exact List.rel_append (hidx ▸ hus) (.cons (hel v hv) .nil)

/-- **Elements are filled in one by one.** -/
theorem insertChain_filled (hset : Sets sem create) {els : List Operand} {cs : List Const} {n : ℕ} :
    ∀ {regs : ℕ → Value} {idx next : ℕ} {done : List Const} {repl : Operand},
      List.Forall₂ (Stands sem regs next) els cs → Filled sem regs n done repl → repl.below next = true →
      done.length = idx → idx + els.length ≤ n →
      (∃ regs', Exec sem regs (insertChain create repl els idx next) regs') ∧
      ∀ regs', Exec sem regs (insertChain create repl els idx next) regs' →
        Filled sem regs' n (done ++ cs) (lastOf repl (insertChain create repl els idx next)) ∧
        (lastOf repl (insertChain create repl els idx next)).below (next + els.length) = true := by
  induction els generalizing cs with
  | nil =>
    intro regs idx next done repl hels h hbelow _ _
    obtain _ | _ := hels
    refine ⟨⟨regs, .nil regs⟩, fun regs' hexec => ?_⟩
    obtain _ | _ := hexec
    rw [List.append_nil]
    exact ⟨h, hbelow⟩
  | cons el els ih =>
    intro regs idx next done repl hels h hbelow hidx hn
    obtain _ | ⟨hel, hels⟩ := hels
    rename_i c cs
    rw [List.length_cons] at hn
    obtain ⟨op, hop, heval⟩ := hset.op next idx repl el
    have hid := hset.id next idx repl el
    have hnext (regs₁ : ℕ → Value) (hagree : Agree next regs regs₁)
        (hfilled : Filled sem regs₁ n (done ++ [c]) (.inst next)) :=
      @ih cs regs₁ (idx + 1) (next + 1) (done ++ [c]) (.inst next)
        (hels.imp fun o c' hs => hs.mono hagree (Nat.le_succ _)) hfilled (decide_eq_true (Nat.lt_succ_self _))
        (by rw [List.length_append, List.length_singleton, hidx]) (by omega)
    have hagree (w : Value) : Agree next regs (Function.update regs (create next idx repl el).id w) := by
      intro id hlt
      rw [hid, Function.update_of_ne hlt.ne]
    rw [insertChain, lastOf_cons, hid, List.length_cons]
    constructor
    · obtain ⟨u, hu⟩ := h.exists_value
      obtain ⟨v, hv⟩ := hel.exists_value
      obtain ⟨vs, hvs, -⟩ := (heval regs _).mpr ⟨u, v, hu, hv, rfl⟩
      have hfilled := h.step hset (fun v => hel.value) hidx (by omega) hop hvs
      obtain ⟨⟨regs', hexec⟩, -⟩ := hnext _ (hagree _) hfilled
      exact ⟨regs', .cons hop hvs hexec⟩
    · intro regs' hexec
      obtain _ | ⟨hop', hvs, hexec⟩ := hexec
      have hfilled := h.step hset (fun v => hel.value) hidx (by omega) hop' hvs
      have hrest := (hnext _ (hagree _) hfilled).2 regs' hexec
      rw [List.append_assoc, show next + 1 + els.length = next + (els.length + 1) by omega] at hrest
      exact hrest

end Chain

/-! ### What the instructions yield -/

/-- The instructions can be executed, and what comes out stands for the constants. -/
def Yields (sem : Semantics) (is : List Inst) (n : ℕ) (os : List Operand) (cs : List Const) : Prop :=
  ∀ regs, (∃ regs', Exec sem regs is regs') ∧
    ∀ regs', Exec sem regs is regs' → List.Forall₂ (Stands sem regs' n) os cs

/-- Nothing has to be executed for an operand that has the values of the constant. -/
theorem yields_nil {n : ℕ} {o : Operand} {c : Const} (hbelow : o.below n = true)
    (hex : ∀ regs, ∃ v, o.Denotes sem regs v) (hval : ∀ regs v, o.Denotes sem regs v → c.Denotes sem v) :
    Yields sem [] n [o] [c] := by
  refine fun regs => ⟨⟨regs, .nil regs⟩, fun regs' hexec => .cons ⟨hbelow, hex regs', hval regs' _⟩ .nil⟩

/-- What is yielded for constants one after the other is yielded for them together. -/
theorem Yields.append {is js : List Inst} {n m : ℕ} {os os' : List Operand} {cs cs' : List Const}
    (h : Yields sem is n os cs) (h' : Yields sem js m os' cs') (hjs : Fresh n js m) :
    Yields sem (is ++ js) m (os ++ os') (cs ++ cs') := by
  intro regs
  obtain ⟨⟨regs₁, hexec₁⟩, hval₁⟩ := h regs
  obtain ⟨⟨regs₂, hexec₂⟩, -⟩ := h' regs₁
  refine ⟨⟨regs₂, hexec₁.append hexec₂⟩, fun regs' hexec => ?_⟩
  obtain ⟨regs₁, hexec₁, hexec₂⟩ := hexec.of_append
  refine List.rel_append ((hval₁ regs₁ hexec₁).imp fun o c hs => ?_) ((h' regs₁).2 regs' hexec₂)
  exact hs.mono (hexec₂.agree hjs) hjs.le

/-- What is filled in one by one has the elements of all. -/
theorem Yields.chain {create : ℕ → ℕ → Operand → Operand → Inst} (hset : Sets sem create) {is : List Inst}
    {n : ℕ} {os : List Operand} {cs : List Const} {base c : Const} (h : Yields sem is n os cs)
    (hlen : os.length = cs.length) (hbase : ∃ w, base.Denotes sem w)
    (hseq : ∀ w, base.Denotes sem w → ∃ vs, w = .seq vs ∧ vs.length = cs.length)
    (hc : ∀ vs, Const.DenoteAll sem cs vs → c.Denotes sem (.seq vs)) :
    Yields sem (is ++ insertChain create (.const base) os 0 n) (n + os.length)
      [lastOf (.const base) (insertChain create (.const base) os 0 n)] [c] := by
  have hfilled (regs : ℕ → Value) : Filled sem regs cs.length [] (.const base) := by
    refine ⟨hbase, fun hw => ?_⟩
    obtain ⟨vs, rfl, hvs⟩ := hseq _ hw
    exact ⟨vs, rfl, hvs, .nil⟩
  have hchain {regs : ℕ → Value} (hos : List.Forall₂ (Stands sem regs n) os cs) :=
    @insertChain_filled sem create hset os cs cs.length regs 0 n [] (.const base) hos (hfilled regs) rfl rfl
      (by omega)
  intro regs
  obtain ⟨⟨regs₁, hexec₁⟩, hval₁⟩ := h regs
  obtain ⟨⟨regs₂, hexec₂⟩, -⟩ := hchain (hval₁ regs₁ hexec₁)
  refine ⟨⟨regs₂, hexec₁.append hexec₂⟩, fun regs' hexec => .cons ?_ .nil⟩
  obtain ⟨regs₁, hexec₁, hexec₂⟩ := hexec.of_append
  obtain ⟨hlast, hbelow⟩ := (hchain (hval₁ regs₁ hexec₁)).2 regs' hexec₂
  refine ⟨hbelow, hlast.exists_value, fun hw => ?_⟩
  obtain ⟨vs, rfl, hvs, hall⟩ := hlast.value hw
  rw [List.nil_append, List.take_of_length_le hvs.le] at hall
  exact hc vs (Const.denoteAll_iff.mpr hall)

/-- The vector that the instructions start from has as many elements. -/
theorem vectorBase_denotes (s : Scalar) (els : List Const) {w : Value}
    (h : (Const.vectorBase s els).Denotes sem w) : ∃ vs, w = .seq vs ∧ vs.length = els.length := by
  rw [Const.vectorBase, Const.vectorGet] at h
  split at h
  · exact ⟨_, h, by rw [List.length_map, List.length_map]⟩
  · obtain ⟨vs, hvs, rfl⟩ := h
    exact ⟨vs, rfl, by rw [← (Const.denoteAll_iff.mp hvs).length_eq, List.length_map]⟩

theorem exists_vectorBase (s : Scalar) (els : List Const) : ∃ w, (Const.vectorBase s els).Denotes sem w := by
  rw [Const.vectorBase, Const.vectorGet]
  split
  · exact ⟨_, rfl⟩
  · obtain ⟨vs, hvs⟩ := @Const.exists_denoteAll sem (els.map (Const.baseElement s)) fun c hc => by
      obtain ⟨el, -, rfl⟩ := List.mem_map.mp hc
      cases el <;> exact ⟨_, rfl⟩
    exact ⟨_, vs, hvs, rfl⟩

/-- Undef and poison may be zero: data stands for an element that needs no instruction. -/
theorem baseElement_denotes {s : Scalar} {c : Const} (hfixed : c.isFixedElement = true)
    (hty : c.HasTy (.scalar s)) {v : Value} (h : (c.baseElement s).Denotes sem v) : c.Denotes sem v := by
  cases c with
  | data ty w => exact h
  | undef ty =>
    obtain rfl : Ty.scalar s = ty := hty
    exact ⟨0, h⟩
  | _ => cases hfixed

theorem dataValue_denotes {c : Const} (hfixed : c.isFixedElement = true) (s : Scalar) :
    (c.baseElement s).Denotes sem (c.baseElement s).dataValue := by
  cases c with
  | data ty w => rfl
  | undef ty => rfl
  | _ => cases hfixed

/-- A vector of data, undef and poison is replaced by one of data. -/
theorem vectorBase_fixed {s : Scalar} {els : List Const} (hfixed : els.all Const.isFixedElement = true)
    (hty : Const.HaveTys els (els.map fun _ => .scalar s)) {w : Value}
    (h : (Const.vectorBase s els).Denotes sem w) : (Const.vector s els).Denotes sem w := by
  have hbase : ∃ vs, w = .seq vs ∧ Const.DenoteAll sem (els.map (Const.baseElement s)) vs := by
    rw [Const.vectorBase, Const.vectorGet] at h
    split at h
    · refine ⟨_, h, Const.denoteAll_iff.mpr ?_⟩
      rw [List.forall₂_map_right_iff, List.forall₂_same]
      intro c hc
      obtain ⟨el, hel, rfl⟩ := List.mem_map.mp hc
      exact dataValue_denotes (List.all_eq_true.mp hfixed el hel) s
    · obtain ⟨vs, hvs, rfl⟩ := h
      exact ⟨vs, rfl, hvs⟩
  obtain ⟨vs, rfl, hvs⟩ := hbase
  refine ⟨vs, ?_, rfl⟩
  clear h
  induction els generalizing vs with
  | nil => exact hvs
  | cons c cs ih =>
    rw [List.all_cons, Bool.and_eq_true] at hfixed
    obtain ⟨ty, tys, htys, hc, hcs⟩ := hty
    obtain ⟨rfl, rfl⟩ := List.cons.inj htys
    obtain ⟨v, rest, rfl, hv, hrest⟩ := hvs
    exact ⟨v, rest, rfl, baseElement_denotes hfixed.1 hc hv, ih hfixed.2 hcs rest hrest⟩

/-- A constant expression yields as an instruction what it is. -/
theorem yields_getAsInstruction (n : ℕ) {op : PureOp} {ty : Ty} {ops : List Const}
    (h : ∀ c ∈ ops, ∃ ty, c.HasTy ty) :
    Yields sem [getAsInstruction n op ty ops] (n + 1) [.inst n] [.expr op ty ops] := by
  obtain ⟨vs, hvs⟩ := @Const.exists_denoteAll sem ops fun c hc => (h c hc).elim fun _ => Const.exists_denotes
  have hops {regs : ℕ → Value} {vs : List Value} :
      List.Forall₂ (Operand.Denotes sem regs) (ops.map .const) vs ↔ Const.DenoteAll sem ops vs := by
    rw [Const.denoteAll_iff, List.forall₂_map_left_iff]
    exact Iff.rfl
  intro regs
  refine ⟨⟨_, .cons rfl (hops.mpr hvs) (.nil _)⟩, fun regs' hexec => .cons ?_ .nil⟩
  obtain _ | ⟨hop, hvs', hexec⟩ := hexec
  obtain _ | _ := hexec
  obtain rfl := Opcode.pure.inj hop
  refine ⟨decide_eq_true n.lt_succ_self, ⟨_, rfl⟩, fun {v} hv => ⟨_, hops.mp hvs', ?_⟩⟩
  rw [show v = _ from hv]
  exact Function.update_self ..

/-- **Instructions stand for a constant**: they can be executed, whatever was yielded before, and what
comes out is a value of the constant. -/
theorem fixupConstant_yields {c : Const} {ty : Ty} (h : c.HasTy ty) (n : ℕ) :
    Yields sem (fixupConstant n c).insts (fixupConstant n c).next
      [(fixupConstant n c).repl.getD (.const c)] [c] := by
  induction c using Const.induction_on
    (q := fun cs => ∀ n, (∀ c ∈ cs, ∃ ty, c.HasTy ty) →
      Yields sem (fixupAll n cs).insts (fixupAll n cs).next ((fixupAll n cs).operands cs) cs)
    generalizing n ty with
  | data ty v => exact yields_nil rfl (fun _ => Const.exists_denotes h) fun _ _ hv => hv
  | undef ty => exact yields_nil rfl (fun _ => Const.exists_denotes h) fun _ _ hv => hv
  | global g => exact yields_nil rfl (fun _ => Const.exists_denotes h) fun _ _ hv => hv
  | special kind k => exact yields_nil rfl (fun _ => Const.exists_denotes h) fun _ _ hv => hv
  | expr op ty' ops ih =>
    obtain ⟨-, tys, hops⟩ := h
    exact yields_getAsInstruction n fun c hc => hops.hasTy hc
  | vector s els ih =>
    cases hf : els.all Const.isFixedElement with
    | true =>
      have hn := (insts_eq_nil (.vector s els) n).mpr (by simp [Const.inserts, hf])
      rw [hn, fixupConstant_fixed hf]
      exact yields_nil rfl (fun _ => exists_vectorBase s els) fun _ _ hv => vectorBase_fixed hf h.2 hv
    | false =>
      have hels := ih n fun c hc => h.2.hasTy hc
      have hchain := @Yields.chain sem _ (sets_insertElementInst (.vector els.length s)) _ _ _ els
        (.vectorBase s els) (.vector s els) hels (length_operands els n) (exists_vectorBase s els)
        (fun _ hw => vectorBase_denotes s els hw) fun vs hvs => ⟨vs, hvs, rfl⟩
      rw [fixupConstant_vector hf, vectorChain, length_insertChain]
      exact hchain
  | aggregate ty els ih =>
    have hty := h
    obtain ⟨-, tys, rfl, hels⟩ := h
    cases hr : Const.replacedAny els with
    | false =>
      have hn := (insts_eq_nil (.aggregate (.aggregate tys) els) n).mpr (by simp [Const.inserts, hr])
      rw [hn, fixupConstant_kept hr]
      exact yields_nil rfl (fun _ => Const.exists_denotes hty) fun _ _ hv => hv
    | true =>
      have hyields := ih n fun c hc => hels.hasTy hc
      have hchain := @Yields.chain sem _ (sets_insertValueInst (.aggregate tys)) _ _ _ els
        (.undef (.aggregate tys)) (.aggregate (.aggregate tys) els) hyields (length_operands els n)
        ⟨_, (Ty.aggregate tys).has_zero⟩
        (fun _ hw => hw.imp fun vs hvs => ⟨hvs.1, hvs.2.length.trans hels.length⟩)
        fun vs hvs => ⟨vs, hvs, rfl⟩
      rw [fixupConstant_aggregate hr, aggregateChain, length_insertChain]
      exact hchain
  | nil n => exact fun regs => ⟨⟨regs, .nil regs⟩, fun _ _ => .nil⟩
  | cons c cs ih ihs n hcs =>
    obtain ⟨ty, hc⟩ := hcs c List.mem_cons_self
    rw [operands_cons]
    exact (ih hc n).append (ihs _ fun d hd => hcs d (List.mem_cons_of_mem _ hd)) (fixupAll_fresh cs _)

/-- What `fixup_constant` does: the instructions are new, can be executed and leave what was yielded
before, what stands for the constant afterwards has values, and they are values of the constant, and no
expression is left in it. -/
structure Fixup.Correct (sem : Semantics) (n : ℕ) (c : Const) (f : Fixup) : Prop where
  fresh : Fresh n f.insts f.next
  runs (regs : ℕ → Value) : ∃ regs', Exec sem regs f.insts regs'
  kept {regs regs' : ℕ → Value} (h : Exec sem regs f.insts regs') : Agree n regs regs'
  exists_value {regs regs' : ℕ → Value} (h : Exec sem regs f.insts regs') :
    ∃ v, (f.repl.getD (.const c)).Denotes sem regs' v
  value {regs regs' : ℕ → Value} {v : Value} (h : Exec sem regs f.insts regs')
    (hv : (f.repl.getD (.const c)).Denotes sem regs' v) : c.Denotes sem v
  inert : (f.repl.getD (.const c)).inert = true
  insBegin : f.insBegin = f.insts.head?.map Inst.id ↔ (c.inserts = true → c.reports = true)

/-- **A constant is replaced by what has its value**, and by nothing with an expression in it. The first
instruction is returned for exactly the constants that report. -/
theorem fixupConstant_correct (sem : Semantics) {c : Const} {ty : Ty} (h : c.HasTy ty) (n : ℕ) :
    (fixupConstant n c).Correct sem n c := by
  have hyields (regs : ℕ → Value) := @fixupConstant_yields sem c ty h n regs
  have hstands {regs regs' : ℕ → Value} (hexec : Exec sem regs (fixupConstant n c).insts regs') :
      Stands sem regs' (fixupConstant n c).next ((fixupConstant n c).repl.getD (.const c)) c :=
    (List.forall₂_cons.mp ((hyields regs).2 regs' hexec)).1
  exact ⟨fixupConstant_fresh c n, fun regs => (hyields regs).1,
    fun hexec => hexec.agree (fixupConstant_fresh c n), fun hexec => (hstands hexec).exists_value,
    fun hexec => (hstands hexec).value, getD_inert c n, insBegin_iff c n⟩

/-- A struct of a vector with undef and of an expression within another struct. -/
def nestedConst : Const :=
  .aggregate (.aggregate [.vector 2 .ptr, .aggregate [.scalar (.int 64)]])
    [.vector .ptr [.global 0, .undef (.scalar .ptr)],
      .aggregate (.aggregate [.scalar (.int 64)]) [.expr (.other 0) (.scalar (.int 64)) [.global 1]]]

/-- The instructions for the struct are executed where the expression is the address of the global. -/
theorem fixupConstant_correct_nested :
    (fixupConstant 7 nestedConst).Correct
      ⟨fun _ => .scalar 0, fun g => .scalar (8 * g), fun _ k => .scalar k, fun _ vs => vs.headD (.scalar 0)⟩ 7
      nestedConst := by
  have hvector : (Const.vector .ptr [.global 0, .undef (.scalar .ptr)]).HasTy (.vector 2 .ptr) :=
    ⟨rfl, _, _, rfl, rfl, _, _, rfl, rfl, rfl⟩
  have hexpr : (Const.expr (.other 0) (.scalar (.int 64)) [.global 1]).HasTy (.scalar (.int 64)) :=
    ⟨rfl, _, _, _, rfl, rfl, rfl⟩
  have hstruct : (Const.aggregate (.aggregate [.scalar (.int 64)])
      [.expr (.other 0) (.scalar (.int 64)) [.global 1]]).HasTy (.aggregate [.scalar (.int 64)]) :=
    ⟨rfl, _, rfl, _, _, rfl, hexpr, rfl⟩
  exact @fixupConstant_correct _ nestedConst _ ⟨rfl, _, rfl, _, _, rfl, hvector, _, _, rfl, hstruct, rfl⟩ 7

end Tpde.Ir
