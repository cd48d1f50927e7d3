import Tpde.Llvm.Ir

/-!
# Constants that become instructions

`LLVMAdaptor::fixup_constant` takes a constant expression, or an aggregate with one
inside, apart into instructions. It returns what stands for the constant, and the first
instruction it has inserted, which the caller restarts from. An aggregate asks its
members for their first instruction and does not look at its own: where only vectors
with undef elements are replaced in it, it inserts instructions and returns none.

`inserts`, `replaced`, `reports` and `settled` say of a constant, from its shape, what
the function does with it.
-/

namespace Tpde.Ir

/-- What `fixup_constant` returns, the instructions it has inserted and the next fresh id. -/
structure Fixup where
  repl : Option Operand
  insBegin : Option ℕ
  insts : List Inst
  next : ℕ

/-- The same of a list of constants. -/
structure Fixups where
  repls : List (Option Operand)
  insBegin : Option ℕ
  insts : List Inst
  next : ℕ

/-- `InsertElementInst::Create`. -/
def insertElementInst (ty : Ty) (id idx : ℕ) (repl el : Operand) : Inst where
  id := id
  op := .pure .insertElement
  ty := ty
  operands := [repl, el, .const (.data (.scalar (.int 32)) (.scalar idx))]
  blocks := []

/-- `InsertValueInst::Create`. -/
def insertValueInst (ty : Ty) (id idx : ℕ) (repl el : Operand) : Inst where
  id := id
  op := .pure (.insertValue idx)
  ty := ty
  operands := [repl, el]
  blocks := []

/-- `ConstantExpr::getAsInstruction`. -/
def getAsInstruction (id : ℕ) (op : PureOp) (ty : Ty) (ops : List Const) : Inst where
  id := id
  op := .pure op
  ty := ty
  operands := ops.map .const
  blocks := []

/-- The elements inserted one by one, from index `idx` on. -/
def insertChain (create : ℕ → ℕ → Operand → Operand → Inst) : Operand → List Operand → ℕ → ℕ → List Inst
  | _, [], _, _ => []
  | repl, el :: els, idx, next =>
    create next idx repl el :: insertChain create (.inst next) els (idx + 1) (next + 1)

/-- What the last instruction yields, or `repl` where there is none. -/
def lastOf (repl : Operand) (insts : List Inst) : Operand :=
  (insts.getLast?.map fun i => .inst i.id).getD repl

/-- What stands for each constant of a list. -/
def Fixups.operands (r : Fixups) (cs : List Const) : List Operand :=
  r.repls.zipWith (fun repl c => repl.getD (.const c)) cs

/-- The element of the vector that the instructions start from: undef and poison become zero, and so
does what is inserted later. -/
def Const.baseElement (s : Scalar) : Const → Const
  | data ty v => data ty v
  | _ => nullValue s

/-- The vector that the instructions start from. -/
def Const.vectorBase (s : Scalar) (els : List Const) : Const := vectorGet s (els.map (baseElement s))

mutual
/-- `fixup_constant`. -/
def fixupConstant (next : ℕ) : Const → Fixup
  | .expr op ty ops =>
    { repl := some (.inst next), insBegin := some next, insts := [getAsInstruction next op ty ops],
      next := next + 1 }
  | .vector s els =>
    let base := Operand.const (.vectorBase s els)
    let r := fixupAll next els
    if els.all Const.isFixedElement then
      { repl := some base, insBegin := none, insts := r.insts, next := r.next }
    else
      let ins := insertChain (insertElementInst (.vector els.length s)) base (r.operands els) 0 r.next
      { repl := some (lastOf base ins), insBegin := r.insBegin <|> ins.head?.map Inst.id,
        insts := r.insts ++ ins, next := r.next + ins.length }
  | .aggregate ty els =>
    let r := fixupAll next els
    if r.repls.all Option.isNone then
      { repl := none, insBegin := none, insts := r.insts, next := r.next }
    else
      let base := Operand.const (.undef ty)
      let ins := insertChain (insertValueInst ty) base (r.operands els) 0 r.next
      { repl := some (lastOf base ins), insBegin := r.insBegin, insts := r.insts ++ ins,
        next := r.next + ins.length }
  | _ => { repl := none, insBegin := none, insts := [], next := next }
/-- The elements of an aggregate, with the first `ins_begin` among theirs. -/
def fixupAll (next : ℕ) : List Const → Fixups
  | [] => { repls := [], insBegin := none, insts := [], next := next }
  | c :: cs =>
    let f := fixupConstant next c
    let r := fixupAll f.next cs
    { repls := f.repl :: r.repls, insBegin := f.insBegin <|> r.insBegin, insts := f.insts ++ r.insts,
      next := r.next }
end

namespace Const

mutual
/-- Something else stands for the constant afterwards. -/
def replaced : Const → Bool
  | expr .. | vector .. => true
  | aggregate _ els => replacedAny els
  | _ => false
def replacedAny : List Const → Bool
  | [] => false
  | c :: cs => replaced c || replacedAny cs
end

/-- Instructions are inserted for the constant: it is an expression, a vector with a global or an
expression as element, or has a member that is replaced. -/
def inserts : Const → Bool
  | expr .. => true
  | vector _ els => !els.all isFixedElement
  | aggregate _ els => replacedAny els
  | _ => false

mutual
/-- The first instruction inserted is the one returned: of an aggregate, the first member that
instructions are inserted for exists and has this property. -/
def reports : Const → Bool
  | vector _ els => reportsFirst true els
  | aggregate _ els => reportsFirst false els
  | _ => true
/-- The first constant that instructions are inserted for reports; `d` where there is none. -/
def reportsFirst (d : Bool) : List Const → Bool
  | [] => d
  | c :: cs => if c.inserts then c.reports else reportsFirst d cs
end

mutual
/-- Every expression in the constant has operands that report, as an instruction of its own. -/
def settled : Const → Bool
  | expr _ _ ops => reportsFirst true ops && settledAll ops
  | vector _ els => settledAll els
  | aggregate _ els => settledAll els
  | _ => true
def settledAll : List Const → Bool
  | [] => true
  | c :: cs => settled c && settledAll cs
end

theorem settledAll_iff {cs : List Const} : settledAll cs = true ↔ ∀ c ∈ cs, c.settled = true := by
  induction cs with
  | nil => simp [settledAll]
  | cons c cs ih => simp [settledAll, ih]

theorem replacedAny_iff {cs : List Const} : replacedAny cs = true ↔ ∃ c ∈ cs, c.replaced = true := by
  induction cs with
  | nil => simp [replacedAny]
  | cons c cs ih => simp [replacedAny, ih]

/-- What has instructions inserted for it is replaced. -/
theorem replaced_of_inserts {c : Const} (h : c.inserts = true) : c.replaced = true := by
  cases c with
  | aggregate ty els => simpa [inserts, replaced] using h
  | expr op ty ops => rfl
  | vector s els => rfl
  | data ty v => simp [inserts] at h
  | undef ty => simp [inserts] at h
  | global g => simp [inserts] at h
  | special kind k => simp [inserts] at h

/-- A constant that is not replaced has no expression in it. -/
theorem clean_of_not_replaced {c : Const} (h : c.replaced = false) : c.clean = true := by
  induction c using induction_parts with
  | data ty v => rfl
  | undef ty => rfl
  | global g => rfl
  | special kind k => rfl
  | expr op ty ops ih => simp [replaced] at h
  | vector s els ih => simp [replaced] at h
  | aggregate ty els ih =>
    rw [clean, cleanAll_iff]
    intro c hc
    apply ih c hc
    by_contra hr
    have : replacedAny els = true := replacedAny_iff.mpr ⟨c, hc, by simpa using hr⟩
    simp [replaced, this] at h

/-- Nothing is left to settle where there is no expression. -/
theorem settled_of_clean {c : Const} (h : c.clean = true) : c.settled = true := by
  induction c using induction_parts with
  | data ty v => rfl
  | undef ty => rfl
  | global g => rfl
  | special kind k => rfl
  | expr op ty ops ih => simp [clean] at h
  | vector s els ih =>
    rw [clean, cleanAll_iff] at h
    exact settledAll_iff.mpr fun c hc => ih c hc (h c hc)
  | aggregate ty els ih =>
    rw [clean, cleanAll_iff] at h
    exact settledAll_iff.mpr fun c hc => ih c hc (h c hc)

end Const

/-- The ids of new instructions are the next ones, in order. -/
def Fresh (next : ℕ) (insts : List Inst) (next' : ℕ) : Prop :=
  insts.map Inst.id = List.range' next insts.length ∧ next' = next + insts.length

namespace Fresh

theorem nil (n : ℕ) : Fresh n [] n := by simp [Fresh]

theorem append {n m k : ℕ} {a b : List Inst} (ha : Fresh n a m) (hb : Fresh m b k) : Fresh n (a ++ b) k := by
  obtain ⟨ha, rfl⟩ := ha
  obtain ⟨hb, rfl⟩ := hb
  constructor
  · rw [List.map_append, ha, hb, List.length_append, ← List.range'_append]
    simp
  · rw [List.length_append, add_assoc]

theorem le {n m : ℕ} {a : List Inst} (h : Fresh n a m) : n ≤ m := h.2 ▸ Nat.le_add_right ..

theorem mem {n m : ℕ} {a : List Inst} (h : Fresh n a m) {i : Inst} (hi : i ∈ a) : n ≤ i.id ∧ i.id < m := by
  have : i.id ∈ a.map Inst.id := List.mem_map_of_mem hi
  rw [h.1, List.mem_range'_1] at this
  rwa [h.2]

theorem nodup {n m : ℕ} {a : List Inst} (h : Fresh n a m) : (a.map Inst.id).Nodup := by
  rw [h.1]
  exact List.nodup_range'

end Fresh

section Chain

variable {create : ℕ → ℕ → Operand → Operand → Inst}

@[simp] theorem length_insertChain (repl : Operand) (els : List Operand) (idx next : ℕ) :
    (insertChain create repl els idx next).length = els.length := by
  induction els generalizing repl idx next with
  | nil => rfl
  | cons el els ih => simp [insertChain, ih]

theorem fresh_insertChain (hid : ∀ id idx repl el, (create id idx repl el).id = id) (repl : Operand)
    (els : List Operand) (idx next : ℕ) :
    Fresh next (insertChain create repl els idx next) (next + els.length) := by
  induction els generalizing repl idx next with
  | nil => exact Fresh.nil next
  | cons el els ih =>
    have := Fresh.append (a := [create next idx repl el]) (n := next) (m := next + 1)
      (by simp [Fresh, hid]) (ih (.inst next) (idx + 1) (next + 1))
    rwa [List.length_cons, show next + (els.length + 1) = next + 1 + els.length by omega]

/-- Every instruction of the chain takes `repl` or the one before it, and an element. -/
theorem mem_insertChain {repl : Operand} {els : List Operand} {idx next : ℕ} {i : Inst}
    (h : i ∈ insertChain create repl els idx next) :
    ∃ id idx' r, ∃ el ∈ els, i = create id idx' r el ∧ next ≤ id ∧ (r = repl ∨ ∃ d < id, r = .inst d) := by
  induction els generalizing repl idx next with
  | nil => simp [insertChain] at h
  | cons el els ih =>
    rw [insertChain, List.mem_cons] at h
    rcases h with rfl | h
    · exact ⟨next, idx, repl, el, by simp, rfl, le_rfl, .inl rfl⟩
    · obtain ⟨id, idx', r, el', hel, rfl, hid, hr⟩ := ih h
      refine ⟨id, idx', r, el', by simp [hel], rfl, by omega, .inr ?_⟩
      rcases hr with rfl | ⟨d, hd, rfl⟩
      · exact ⟨next, by omega, rfl⟩
      · exact ⟨d, hd, rfl⟩

end Chain

/-! ### What is inserted -/

/-- The instructions that fill a vector. -/
def vectorChain (n : ℕ) (s : Scalar) (els : List Const) : List Inst :=
  insertChain (insertElementInst (.vector els.length s)) (.const (.vectorBase s els))
    ((fixupAll n els).operands els) 0 (fixupAll n els).next

/-- The instructions that fill an aggregate. -/
def aggregateChain (n : ℕ) (ty : Ty) (els : List Const) : List Inst :=
  insertChain (insertValueInst ty) (.const (.undef ty)) ((fixupAll n els).operands els) 0
    (fixupAll n els).next

section
attribute [local simp] fixupConstant

theorem fixupConstant_fixed {els : List Const} (h : els.all Const.isFixedElement = true) (n : ℕ)
    (s : Scalar) :
    fixupConstant n (.vector s els) =
      { repl := some (.const (.vectorBase s els)), insBegin := none, insts := (fixupAll n els).insts,
        next := (fixupAll n els).next } := by
  simp [fixupConstant, h]

theorem fixupConstant_vector {els : List Const} (h : els.all Const.isFixedElement = false) (n : ℕ)
    (s : Scalar) :
    fixupConstant n (.vector s els) =
      { repl := some (lastOf (.const (.vectorBase s els)) (vectorChain n s els)),
        insBegin := (fixupAll n els).insBegin <|> (vectorChain n s els).head?.map Inst.id,
        insts := (fixupAll n els).insts ++ vectorChain n s els,
        next := (fixupAll n els).next + (vectorChain n s els).length } := by
  simp only [fixupConstant, h, Bool.false_eq_true, if_false]
  rfl

end

theorem repls_length (cs : List Const) (n : ℕ) : (fixupAll n cs).repls.length = cs.length := by
  induction cs generalizing n with
  | nil => rfl
  | cons c cs ih => simp [fixupAll, ih]

theorem length_operands (cs : List Const) (n : ℕ) : ((fixupAll n cs).operands cs).length = cs.length := by
  simp [Fixups.operands, repls_length]

/-- Something stands for exactly the constants that are replaced. -/
theorem repl_isSome (c : Const) (n : ℕ) : (fixupConstant n c).repl.isSome = c.replaced := by
  induction c using Const.induction_on
    (q := fun cs => ∀ n, (fixupAll n cs).repls.all Option.isNone = !Const.replacedAny cs) generalizing n with
  | data ty v => rfl
  | undef ty => rfl
  | global g => rfl
  | special kind k => rfl
  | expr op ty ops => rfl
  | vector s els =>
    rw [fixupConstant, Const.replaced]
    split_ifs <;> rfl
  | aggregate ty els ih =>
    rw [fixupConstant, Const.replaced]
    have := ih n
    split_ifs with h
    · simpa [h] using this
    · simpa [h] using this
  | nil n => rfl
  | cons c cs ih ihs n =>
    have := ih n
    cases h : (fixupConstant n c).repl <;> simp_all [fixupAll, Const.replacedAny]

theorem repls_all_isNone (cs : List Const) (n : ℕ) :
    (fixupAll n cs).repls.all Option.isNone = !Const.replacedAny cs := by
  induction cs generalizing n with
  | nil => rfl
  | cons c cs ih =>
    have := repl_isSome c n
    cases h : (fixupConstant n c).repl <;> simp_all [fixupAll, Const.replacedAny]

theorem fixupConstant_kept {els : List Const} (h : Const.replacedAny els = false) (n : ℕ) (ty : Ty) :
    fixupConstant n (.aggregate ty els) =
      { repl := none, insBegin := none, insts := (fixupAll n els).insts, next := (fixupAll n els).next } := by
  simp [fixupConstant, repls_all_isNone, h]

theorem fixupConstant_aggregate {els : List Const} (h : Const.replacedAny els = true) (n : ℕ) (ty : Ty) :
    fixupConstant n (.aggregate ty els) =
      { repl := some (lastOf (.const (.undef ty)) (aggregateChain n ty els)),
        insBegin := (fixupAll n els).insBegin, insts := (fixupAll n els).insts ++ aggregateChain n ty els,
        next := (fixupAll n els).next + (aggregateChain n ty els).length } := by
  simp only [fixupConstant, repls_all_isNone, h, Bool.not_true, Bool.false_eq_true, if_false]
  rfl

/-- A property of the instructions inserted for a constant, from those of an expression, of a vector and
of an aggregate. -/
theorem insts_induction {p : Const → List Inst → Prop} {q : List Const → List Inst → Prop}
    (plain : ∀ c, (∀ n, fixupConstant n c = ⟨none, none, [], n⟩) → p c [])
    (expr : ∀ n op ty ops, p (.expr op ty ops) [getAsInstruction n op ty ops])
    (fixed : ∀ s els is, els.all Const.isFixedElement = true → q els is → p (.vector s els) is)
    (vector : ∀ n s els, els.all Const.isFixedElement = false → q els (fixupAll n els).insts →
      p (.vector s els) ((fixupAll n els).insts ++ vectorChain n s els))
    (kept : ∀ ty els is, Const.replacedAny els = false → q els is → p (.aggregate ty els) is)
    (aggregate : ∀ n ty els, Const.replacedAny els = true → q els (fixupAll n els).insts →
      p (.aggregate ty els) ((fixupAll n els).insts ++ aggregateChain n ty els))
    (nil : q [] [])
    (cons : ∀ c cs is js, p c is → q cs js → q (c :: cs) (is ++ js)) (c : Const) (n : ℕ) :
    p c (fixupConstant n c).insts := by
  induction c using Const.induction_on (q := fun cs => ∀ n, q cs (fixupAll n cs).insts) generalizing n with
  | data ty v => exact plain _ fun _ => rfl
  | undef ty => exact plain _ fun _ => rfl
  | global g => exact plain _ fun _ => rfl
  | special kind k => exact plain _ fun _ => rfl
  | expr op ty ops => exact expr n op ty ops
  | vector s els ih =>
    cases h : els.all Const.isFixedElement with
    | true =>
      rw [fixupConstant_fixed h]
      exact fixed s els _ h (ih n)
    | false =>
      rw [fixupConstant_vector h]
      exact vector n s els h (ih n)
  | aggregate ty els ih =>
    cases h : Const.replacedAny els with
    | false =>
      rw [fixupConstant_kept h]
      exact kept ty els _ h (ih n)
    | true =>
      rw [fixupConstant_aggregate h]
      exact aggregate n ty els h (ih n)
  | nil n => exact nil
  | cons c cs ih ihs n => exact cons c cs _ _ (ih n) (ihs _)

theorem insts_of_plain {c : Const} (h : ∀ n, fixupConstant n c = ⟨none, none, [], n⟩) :
    c.replaced = false := by
  rw [← repl_isSome c 0, h]
  rfl

theorem fresh_vectorChain (n : ℕ) (s : Scalar) (els : List Const) :
    Fresh (fixupAll n els).next (vectorChain n s els)
      ((fixupAll n els).next + (vectorChain n s els).length) := by
  have := @fresh_insertChain (insertElementInst (.vector els.length s)) (fun _ _ _ _ => rfl)
    (.const (.vectorBase s els)) ((fixupAll n els).operands els) 0 (fixupAll n els).next
  rwa [vectorChain, length_insertChain]

theorem fresh_aggregateChain (n : ℕ) (ty : Ty) (els : List Const) :
    Fresh (fixupAll n els).next (aggregateChain n ty els)
      ((fixupAll n els).next + (aggregateChain n ty els).length) := by
  have := @fresh_insertChain (insertValueInst ty) (fun _ _ _ _ => rfl)
    (.const (.undef ty)) ((fixupAll n els).operands els) 0 (fixupAll n els).next
  rwa [aggregateChain, length_insertChain]

/-- The new instructions have the next ids. -/
theorem fixupConstant_fresh (c : Const) (n : ℕ) :
    Fresh n (fixupConstant n c).insts (fixupConstant n c).next := by
  induction c using Const.induction_on
    (q := fun cs => ∀ n, Fresh n (fixupAll n cs).insts (fixupAll n cs).next) generalizing n with
  | data ty v => exact Fresh.nil n
  | undef ty => exact Fresh.nil n
  | global g => exact Fresh.nil n
  | special kind k => exact Fresh.nil n
  | expr op ty ops => simp [fixupConstant, Fresh, getAsInstruction]
  | vector s els ih =>
    cases h : els.all Const.isFixedElement with
    | true =>
      rw [fixupConstant_fixed h]
      exact ih n
    | false =>
      rw [fixupConstant_vector h]
      exact (ih n).append (fresh_vectorChain n s els)
  | aggregate ty els ih =>
    cases h : Const.replacedAny els with
    | false =>
      rw [fixupConstant_kept h]
      exact ih n
    | true =>
      rw [fixupConstant_aggregate h]
      exact (ih n).append (fresh_aggregateChain n ty els)
  | nil n => exact Fresh.nil n
  | cons c cs ih ihs n => exact (ih n).append (ihs _)

theorem fixupAll_fresh (cs : List Const) (n : ℕ) : Fresh n (fixupAll n cs).insts (fixupAll n cs).next := by
  induction cs generalizing n with
  | nil => exact Fresh.nil n
  | cons c cs ih => exact (fixupConstant_fresh c n).append (ih _)

theorem vectorChain_ne_nil {els : List Const} (h : els.all Const.isFixedElement = false) (n : ℕ)
    (s : Scalar) :
    vectorChain n s els ≠ [] := by
  rw [← List.length_pos_iff, vectorChain, length_insertChain, length_operands]
  cases els with
  | nil => simp at h
  | cons => simp

theorem aggregateChain_ne_nil {els : List Const} (h : Const.replacedAny els = true) (n : ℕ) (ty : Ty) :
    aggregateChain n ty els ≠ [] := by
  rw [← List.length_pos_iff, aggregateChain, length_insertChain, length_operands]
  cases els with
  | nil => simp [Const.replacedAny] at h
  | cons => simp

/-- Instructions are inserted for exactly the constants that `inserts` names. -/
theorem insts_eq_nil (c : Const) (n : ℕ) : (fixupConstant n c).insts = [] ↔ c.inserts = false := by
  refine insts_induction (p := fun c is => is = [] ↔ c.inserts = false)
    (q := fun cs is => is = [] ↔ ∀ c ∈ cs, c.inserts = false) ?_ ?_ ?_ ?_ ?_ ?_ ?_ ?_ c n
  · intro c h
    have : c.inserts = false := by
      by_contra hi
      have := Const.replaced_of_inserts (by simpa using hi)
      rw [insts_of_plain h] at this
      exact absurd this (by simp)
    simp [this]
  · intro n op ty ops
    simp [Const.inserts]
  · intro s els is h hq
    simp only [Const.inserts, h, Bool.not_true, iff_true]
    rw [hq]
    intro c hc
    have := List.all_eq_true.mp h c hc
    cases c <;> simp_all [Const.isFixedElement, Const.inserts]
  · intro n s els h _
    simp [Const.inserts, h, vectorChain_ne_nil h]
  · intro ty els is h hq
    simp only [Const.inserts, h, iff_true]
    rw [hq]
    intro c hc
    by_contra hi
    have := Const.replacedAny_iff.mpr ⟨c, hc, Const.replaced_of_inserts (by simpa using hi)⟩
    rw [h] at this
    exact absurd this (by simp)
  · intro n ty els h _
    simp [Const.inserts, h, aggregateChain_ne_nil h]
  · simp
  · intro c cs is js hp hq
    simp [hp, hq]

theorem insts_all_eq_nil (cs : List Const) (n : ℕ) :
    (fixupAll n cs).insts = [] ↔ ∀ c ∈ cs, c.inserts = false := by
  induction cs generalizing n with
  | nil => simp [fixupAll]
  | cons c cs ih => simp [fixupAll, insts_eq_nil, ih]

/-! ### The first instruction inserted -/

theorem orElse_cases {α : Type} {p q : Option α} {x : α} (h : x ∈ (p <|> q)) : x ∈ p ∨ x ∈ q := by
  cases p with
  | none => exact .inr (by simpa using h)
  | some y => exact .inl (by simpa using h)

/-- What is returned as the first instruction is one of those inserted. -/
theorem insBegin_mem (c : Const) (n : ℕ) :
    ∀ p ∈ (fixupConstant n c).insBegin, ∃ i ∈ (fixupConstant n c).insts, i.id = p := by
  induction c using Const.induction_on
    (q := fun cs => ∀ n, ∀ p ∈ (fixupAll n cs).insBegin, ∃ i ∈ (fixupAll n cs).insts, i.id = p)
    generalizing n with
  | data ty v => simp [fixupConstant]
  | undef ty => simp [fixupConstant]
  | global g => simp [fixupConstant]
  | special kind k => simp [fixupConstant]
  | expr op ty ops => simp [fixupConstant, getAsInstruction]
  | vector s els ih =>
    intro p hp
    cases h : els.all Const.isFixedElement with
    | true =>
      rw [fixupConstant_fixed h] at hp
      simp at hp
    | false =>
      rw [fixupConstant_vector h] at hp ⊢
      rcases orElse_cases hp with hp | hp
      · obtain ⟨i, hi, rfl⟩ := ih n p hp
        exact ⟨i, List.mem_append_left _ hi, rfl⟩
      · obtain ⟨i, hi, rfl⟩ := Option.map_eq_some_iff.mp hp
        exact ⟨i, List.mem_append_right _ (List.mem_of_mem_head? hi), rfl⟩
  | aggregate ty els ih =>
    intro p hp
    cases h : Const.replacedAny els with
    | false =>
      rw [fixupConstant_kept h] at hp
      simp at hp
    | true =>
      rw [fixupConstant_aggregate h] at hp ⊢
      obtain ⟨i, hi, rfl⟩ := ih n p hp
      exact ⟨i, List.mem_append_left _ hi, rfl⟩
  | nil n p hp => simp [fixupAll] at hp
  | cons c cs ih ihs n p hp =>
    rcases orElse_cases hp with hp | hp
    · obtain ⟨i, hi, rfl⟩ := ih n p hp
      exact ⟨i, List.mem_append_left _ hi, rfl⟩
    · obtain ⟨i, hi, rfl⟩ := ihs _ p hp
      exact ⟨i, List.mem_append_right _ hi, rfl⟩

theorem insBegin_all_mem (cs : List Const) (n : ℕ) :
    ∀ p ∈ (fixupAll n cs).insBegin, ∃ i ∈ (fixupAll n cs).insts, i.id = p := by
  induction cs generalizing n with
  | nil => simp [fixupAll]
  | cons c cs ih =>
    intro p hp
    rcases orElse_cases hp with hp | hp
    · obtain ⟨i, hi, rfl⟩ := insBegin_mem c n p hp
      exact ⟨i, List.mem_append_left _ hi, rfl⟩
    · obtain ⟨i, hi, rfl⟩ := ih _ p hp
      exact ⟨i, List.mem_append_right _ hi, rfl⟩

/-- A first instruction that is looked for in two lists, one after the other, is that of the whole, if
and only if it is that of the first list, or of the second where the first is empty. -/
theorem orElse_head_iff {n m k : ℕ} {a b : List Inst} (ha : Fresh n a m) (hb : Fresh m b k) {p q : Option ℕ}
    (hp : ∀ x ∈ p, ∃ i ∈ a, i.id = x) (hq : ∀ x ∈ q, ∃ i ∈ b, i.id = x) :
    (p <|> q) = (a ++ b).head?.map Inst.id ↔
      (a = [] → q = b.head?.map Inst.id) ∧ (a ≠ [] → p = a.head?.map Inst.id) := by
  cases a with
  | nil =>
    cases p with
    | none => simp
    | some x => simpa using hp x rfl
  | cons i a =>
    cases p with
    | some x => simp
    | none =>
      suffices ¬ q = some i.id by simpa
      intro h
      obtain ⟨j, hj, hji⟩ := hq i.id (by simpa using h)
      have := (ha.mem (i := i) (by simp)).2
      have := (hb.mem hj).1
      omega

theorem insBegin_all_of_nil {cs : List Const} {n : ℕ} (h : (fixupAll n cs).insts = []) :
    (fixupAll n cs).insBegin = none := by
  by_contra hb
  obtain ⟨x, hx⟩ := Option.ne_none_iff_exists'.mp hb
  obtain ⟨i, hi, -⟩ := insBegin_all_mem cs n x hx
  rw [h] at hi
  exact absurd hi List.not_mem_nil

theorem Const.reportsFirst_of_none {d : Bool} {cs : List Const} (h : ∀ c ∈ cs, c.inserts = false) :
    Const.reportsFirst d cs = d := by
  induction cs with
  | nil => rfl
  | cons c cs ih =>
    rw [Const.reportsFirst, h c (by simp)]
    exact ih fun c hc => h c (by simp [hc])

theorem Const.reportsFirst_congr {d d' : Bool} {cs : List Const} (h : ¬ ∀ c ∈ cs, c.inserts = false) :
    Const.reportsFirst d cs = Const.reportsFirst d' cs := by
  induction cs with
  | nil => simp at h
  | cons c cs ih =>
    rw [Const.reportsFirst, Const.reportsFirst]
    cases hc : c.inserts with
    | true => rfl
    | false => exact ih fun hcs => h (by simpa [hc] using hcs)

/-- The first instruction inserted is returned for exactly the constants that report. -/
theorem insBegin_iff (c : Const) (n : ℕ) :
    (fixupConstant n c).insBegin = (fixupConstant n c).insts.head?.map Inst.id ↔
      (c.inserts = true → c.reports = true) := by
  induction c using Const.induction_on
    (q := fun cs => ∀ n, (fixupAll n cs).insBegin = (fixupAll n cs).insts.head?.map Inst.id ↔
      Const.reportsFirst true cs = true) generalizing n with
  | data ty v => simp [fixupConstant, Const.inserts]
  | undef ty => simp [fixupConstant, Const.inserts]
  | global g => simp [fixupConstant, Const.inserts]
  | special kind k => simp [fixupConstant, Const.inserts]
  | expr op ty ops => simp [fixupConstant, Const.reports, getAsInstruction]
  | vector s els ih =>
    cases h : els.all Const.isFixedElement with
    | true =>
      have hn := (insts_eq_nil (.vector s els) n).mpr (by simp [Const.inserts, h])
      rw [fixupConstant_fixed h] at hn ⊢
      dsimp only at hn ⊢
      rw [hn]
      simp [Const.inserts, h]
    | false =>
      rw [fixupConstant_vector h]
      dsimp only
      rw [orElse_head_iff (fixupAll_fresh els n) (fresh_vectorChain n s els) (insBegin_all_mem els n)
        (by simpa using fun i hi => ⟨i, List.mem_of_mem_head? hi, rfl⟩)]
      have := ih n
      simp only [Const.inserts, h, Const.reports, Bool.not_false, forall_const]
      by_cases ha : (fixupAll n els).insts = []
      · have := Const.reportsFirst_of_none (d := true) ((insts_all_eq_nil els n).mp ha)
        simp [ha, insBegin_all_of_nil ha, this]
      · simp [ha, this]
  | aggregate ty els ih =>
    cases h : Const.replacedAny els with
    | false =>
      have hn := (insts_eq_nil (.aggregate ty els) n).mpr (by simp [Const.inserts, h])
      rw [fixupConstant_kept h] at hn ⊢
      dsimp only at hn ⊢
      rw [hn]
      simp [Const.inserts, h]
    | true =>
      rw [fixupConstant_aggregate h]
      dsimp only
      have hc := aggregateChain_ne_nil h n ty
      have key := orElse_head_iff (p := (fixupAll n els).insBegin) (q := none) (fixupAll_fresh els n)
        (fresh_aggregateChain n ty els) (insBegin_all_mem els n) (by simp)
      rw [show ((fixupAll n els).insBegin <|> none) = (fixupAll n els).insBegin by
        cases (fixupAll n els).insBegin <;> rfl] at key
      rw [key, ih n]
      simp only [Const.inserts, h, Const.reports, forall_const]
      by_cases ha : (fixupAll n els).insts = []
      · have := Const.reportsFirst_of_none (d := false) ((insts_all_eq_nil els n).mp ha)
        simp [ha, this, hc]
      · have : Const.reportsFirst true els = Const.reportsFirst false els :=
          Const.reportsFirst_congr (mt (insts_all_eq_nil els n).mpr ha)
        simp [ha, this]
  | nil n => simp [fixupAll, Const.reportsFirst]
  | cons c cs ih ihs n =>
    rw [fixupAll]
    dsimp only
    rw [orElse_head_iff (fixupConstant_fresh c n) (fixupAll_fresh cs _) (insBegin_mem c n)
      (insBegin_all_mem cs _), ne_eq, insts_eq_nil, ih, ihs, Const.reportsFirst]
    cases c.inserts <;> simp

/-! ### The operands afterwards -/

/-- Nothing is inserted for the operand, and there is no expression in it. -/
def Operand.inert : Operand → Bool
  | const c => !c.inserts && c.clean
  | _ => true

theorem Operand.clean_of_inert {o : Operand} (h : o.inert = true) : o.clean = true := by
  cases o with
  | const c =>
    rw [inert, Bool.and_eq_true] at h
    exact h.2
  | arg i => rfl
  | inst id => rfl
  | other k => rfl

theorem Const.inert_of_not_replaced {c : Const} (h : c.replaced = false) :
    (Operand.const c).inert = true := by
  have hi : c.inserts = false := by
    by_contra hi
    rw [replaced_of_inserts (by simpa using hi)] at h
    exact absurd h (by simp)
  simp [Operand.inert, hi, clean_of_not_replaced h]

theorem inert_vectorBase (s : Scalar) (els : List Const) :
    (Operand.const (.vectorBase s els)).inert = true := by
  rw [Const.vectorBase, Const.vectorGet]
  split_ifs
  · rfl
  · have key : ∀ c ∈ els.map (Const.baseElement s), c.isFixedElement = true ∧ c.clean = true := by
      intro c hc
      obtain ⟨d, -, rfl⟩ := List.mem_map.mp hc
      cases d <;> exact ⟨rfl, rfl⟩
    simp only [Operand.inert, Const.inserts, Const.clean, Bool.not_not, Bool.and_eq_true, Const.cleanAll_iff]
    exact ⟨List.all_eq_true.mpr fun c hc => (key c hc).1, fun c hc => (key c hc).2⟩

theorem inert_lastOf {repl : Operand} (h : repl.inert = true) (insts : List Inst) :
    (lastOf repl insts).inert = true := by
  unfold lastOf
  cases insts.getLast? with
  | none => exact h
  | some i => rfl

/-- What stands for a constant needs nothing more. -/
theorem repl_inert (c : Const) (n : ℕ) : ∀ o ∈ (fixupConstant n c).repl, o.inert = true := by
  intro o ho
  cases c with
  | data ty v => simp [fixupConstant] at ho
  | undef ty => simp [fixupConstant] at ho
  | global g => simp [fixupConstant] at ho
  | special kind k => simp [fixupConstant] at ho
  | expr op ty ops =>
    cases ho
    rfl
  | vector s els =>
    cases h : els.all Const.isFixedElement with
    | true =>
      rw [fixupConstant_fixed h] at ho
      cases ho
      exact inert_vectorBase s els
    | false =>
      rw [fixupConstant_vector h] at ho
      cases ho
      exact inert_lastOf (inert_vectorBase s els) _
  | aggregate ty els =>
    cases h : Const.replacedAny els with
    | false =>
      rw [fixupConstant_kept h] at ho
      cases ho
    | true =>
      rw [fixupConstant_aggregate h] at ho
      cases ho
      exact inert_lastOf rfl _

/-- A constant, or what stands for it, needs nothing more. -/
theorem getD_inert (c : Const) (n : ℕ) : ((fixupConstant n c).repl.getD (.const c)).inert = true := by
  cases h : (fixupConstant n c).repl with
  | none =>
    have := repl_isSome c n
    rw [h] at this
    exact Const.inert_of_not_replaced this.symm
  | some o => exact repl_inert c n o h

theorem operands_cons (c : Const) (cs : List Const) (n : ℕ) :
    (fixupAll n (c :: cs)).operands (c :: cs) =
      (fixupConstant n c).repl.getD (.const c) ::
        (fixupAll (fixupConstant n c).next cs).operands cs := rfl

theorem operands_inert (cs : List Const) (n : ℕ) : ∀ o ∈ (fixupAll n cs).operands cs, o.inert = true := by
  induction cs generalizing n with
  | nil => simp [Fixups.operands, fixupAll]
  | cons c cs ih =>
    intro o ho
    rw [operands_cons, List.mem_cons] at ho
    rcases ho with rfl | ho
    · exact getD_inert c n
    · exact ih _ o ho

/-- The instruction needs nothing more. -/
def Inst.inert (i : Inst) : Bool := i.operands.all Operand.inert

theorem insertChain_inert {create : ℕ → ℕ → Operand → Operand → Inst}
    (hc : ∀ id idx repl el, repl.inert = true → el.inert = true → (create id idx repl el).inert = true)
    {repl : Operand} (hr : repl.inert = true) {els : List Operand} (h : ∀ o ∈ els,
      o.inert = true) (idx next : ℕ) :
    ∀ i ∈ insertChain create repl els idx next, i.inert = true := by
  intro i hi
  obtain ⟨id, idx', r, el, hel, rfl, -, hr'⟩ := mem_insertChain hi
  apply hc
  · rcases hr' with rfl | ⟨d, -, rfl⟩
    · exact hr
    · rfl
  · exact h el hel

theorem vectorChain_inert (n : ℕ) (s : Scalar) (els : List Const) : ∀ i ∈ vectorChain n s els,
    i.inert = true := by
  refine insertChain_inert ?_ (inert_vectorBase s els) (operands_inert els n) 0 _
  intro id idx repl el h1 h2
  simp [Inst.inert, insertElementInst, h1, h2]
  rfl

theorem aggregateChain_inert (n : ℕ) (ty : Ty) (els : List Const) :
    ∀ i ∈ aggregateChain n ty els, i.inert = true := by
  refine insertChain_inert ?_ rfl (operands_inert els n) 0 _
  intro id idx repl el h1 h2
  simp [Inst.inert, insertValueInst, h1, h2]

/-- What comes before the instruction that is returned needs nothing more. -/
theorem inert_before (c : Const) (n : ℕ) : ∃ pre post, (fixupConstant n c).insts = pre ++ post ∧
    (∀ i ∈ pre, i.inert = true) ∧ (fixupConstant n c).insBegin = post.head?.map Inst.id := by
  induction c using Const.induction_on
    (q := fun cs => ∀ n, ∃ pre post, (fixupAll n cs).insts = pre ++ post ∧ (∀ i ∈ pre, i.inert = true) ∧
      (fixupAll n cs).insBegin = post.head?.map Inst.id) generalizing n with
  | data ty v => exact ⟨[], [], by simp [fixupConstant]⟩
  | undef ty => exact ⟨[], [], by simp [fixupConstant]⟩
  | global g => exact ⟨[], [], by simp [fixupConstant]⟩
  | special kind k => exact ⟨[], [], by simp [fixupConstant]⟩
  | expr op ty ops => exact ⟨[], [getAsInstruction n op ty ops], by simp [fixupConstant, getAsInstruction]⟩
  | vector s els ih =>
    cases h : els.all Const.isFixedElement with
    | true =>
      have hn := (insts_eq_nil (.vector s els) n).mpr (by simp [Const.inserts, h])
      rw [fixupConstant_fixed h] at hn ⊢
      exact ⟨[], [], by simpa using hn⟩
    | false =>
      obtain ⟨pre, post, he, hp, hb⟩ := ih n
      rw [fixupConstant_vector h]
      cases post with
      | nil =>
        refine ⟨pre, vectorChain n s els, by simp [he], hp, ?_⟩
        dsimp only
        rw [hb]
        rfl
      | cons i post =>
        refine ⟨pre, i :: post ++ vectorChain n s els, by simp [he], hp, ?_⟩
        dsimp only
        rw [hb]
        rfl
  | aggregate ty els ih =>
    obtain ⟨pre, post, he, hp, hb⟩ := ih n
    cases h : Const.replacedAny els with
    | false =>
      rw [fixupConstant_kept h]
      have hn := (insts_eq_nil (.aggregate ty els) n).mpr (by simp [Const.inserts, h])
      rw [fixupConstant_kept h] at hn
      exact ⟨[], [], by simpa using hn⟩
    | true =>
      rw [fixupConstant_aggregate h]
      cases post with
      | nil =>
        refine ⟨pre ++ aggregateChain n ty els, [], by simp [he], ?_, hb⟩
        intro i hi
        rcases List.mem_append.mp hi with hi | hi
        · exact hp i hi
        · exact aggregateChain_inert n ty els i hi
      | cons i post => exact ⟨pre, i :: post ++ aggregateChain n ty els, by simp [he], hp, hb⟩
  | nil n => exact ⟨[], [], by simp [fixupAll]⟩
  | cons c cs ih ihs n =>
    obtain ⟨pre, post, he, hp, hb⟩ := ih n
    cases post with
    | nil =>
      obtain ⟨pre', post', he', hp', hb'⟩ := ihs (fixupConstant n c).next
      refine ⟨pre ++ pre', post', by simp [fixupAll, he, he'], ?_, by simp [fixupAll, hb, hb']⟩
      intro i hi
      rcases List.mem_append.mp hi with hi | hi
      · exact hp i hi
      · exact hp' i hi
    | cons i post =>
      exact ⟨pre, i :: post ++ (fixupAll (fixupConstant n c).next cs).insts, by simp [fixupAll, he], hp,
        by simp [fixupAll, hb]⟩

/-! ### What is left to do -/

/-- The constants among the operands. -/
def Inst.consts (i : Inst) : List Const :=
  i.operands.filterMap fun
    | .const c => some c
    | _ => none

/-- The instruction is restarted from the first instruction inserted for it, and so are the expressions
inserted. The operands of a phi are not looked at where it stands. -/
def Inst.settled (i : Inst) : Bool :=
  (i.isPhi || Const.reportsFirst true i.consts) && Const.settledAll i.consts

theorem consts_inert {i : Inst} (h : i.inert = true) : ∀ c ∈ i.consts, c.inserts = false ∧
    c.clean = true := by
  intro c hc
  obtain ⟨o, ho, hco⟩ := List.mem_filterMap.mp hc
  have := List.all_eq_true.mp h o ho
  cases o <;> simp_all [Operand.inert]

theorem settled_of_inert {i : Inst} (h : i.inert = true) : i.settled = true := by
  have hc := consts_inert h
  rw [Inst.settled, Const.reportsFirst_of_none fun c hm => (hc c hm).1, Bool.or_true, Bool.true_and,
    Const.settledAll_iff]
  exact fun c hm => Const.settled_of_clean (hc c hm).2

theorem consts_getAsInstruction (n : ℕ) (op : PureOp) (ty : Ty) (ops : List Const) :
    (getAsInstruction n op ty ops).consts = ops := by
  simp [Inst.consts, getAsInstruction, List.filterMap_map]

/-- The instructions inserted for a constant are settled if and only if it is. -/
theorem insts_settled (c : Const) (n : ℕ) :
    (∀ i ∈ (fixupConstant n c).insts, i.settled = true) ↔ c.settled = true := by
  refine insts_induction (p := fun c is => (∀ i ∈ is, i.settled = true) ↔ c.settled = true)
    (q := fun cs is => (∀ i ∈ is, i.settled = true) ↔ Const.settledAll cs = true) ?_ ?_ ?_ ?_ ?_ ?_ ?_ ?_ c n
  · intro c h
    simp [Const.settled_of_clean (Const.clean_of_not_replaced (insts_of_plain h))]
  · intro n op ty ops
    have hp : (getAsInstruction n op ty ops).isPhi = false := rfl
    simp [Inst.settled, hp, consts_getAsInstruction, Const.settled]
  · intro s els is _ hq
    exact hq
  · intro n s els _ hq
    rw [Const.settled, ← hq]
    refine ⟨fun h i hi => h i (List.mem_append_left _ hi), fun h i hi => ?_⟩
    rcases List.mem_append.mp hi with hi | hi
    · exact h i hi
    · exact settled_of_inert (vectorChain_inert n s els i hi)
  · intro ty els is _ hq
    exact hq
  · intro n ty els _ hq
    rw [Const.settled, ← hq]
    refine ⟨fun h i hi => h i (List.mem_append_left _ hi), fun h i hi => ?_⟩
    rcases List.mem_append.mp hi with hi | hi
    · exact h i hi
    · exact settled_of_inert (aggregateChain_inert n ty els i hi)
  · simp [Const.settledAll]
  · intro c cs is js hp hq
    rw [Const.settledAll, Bool.and_eq_true, ← hp, ← hq]
    simp only [List.mem_append, or_imp, forall_and]

/-- An inserted instruction is not a phi, nor a terminator. -/
theorem insts_pure (c : Const) (n : ℕ) : ∀ i ∈ (fixupConstant n c).insts, ∃ op, i.op = .pure op := by
  have chain : ∀ {create : ℕ → ℕ → Operand → Operand → Inst}
      (_ : ∀ id idx r el, ∃ op, (create id idx r el).op = .pure op) (repl els idx next),
      ∀ i ∈ insertChain create repl els idx next, ∃ op, i.op = .pure op := by
    intro create hc repl els idx next i hi
    obtain ⟨id, idx', r, el, -, rfl, -⟩ := mem_insertChain hi
    exact hc ..
  refine insts_induction (p := fun _ is => ∀ i ∈ is, ∃ op, i.op = .pure op)
    (q := fun _ is => ∀ i ∈ is, ∃ op, i.op = .pure op) ?_ ?_ ?_ ?_ ?_ ?_ ?_ ?_ c n
  · simp
  · intro n op ty ops
    simp [getAsInstruction]
  · exact fun _ _ _ _ h => h
  · intro n s els _ h i hi
    rcases List.mem_append.mp hi with hi | hi
    · exact h i hi
    · exact chain (fun _ _ _ _ => ⟨_, rfl⟩) _ _ _ _ i hi
  · exact fun _ _ _ _ h => h
  · intro n ty els _ h i hi
    rcases List.mem_append.mp hi with hi | hi
    · exact h i hi
    · exact chain (fun _ _ _ _ => ⟨_, rfl⟩) _ _ _ _ i hi
  · simp
  · intro c cs is js hp hq i hi
    rcases List.mem_append.mp hi with hi | hi
    · exact hp i hi
    · exact hq i hi

/-! ### How often a loop that restarts comes by -/

namespace Const

mutual
/-- How many visits of an instruction a constant among its operands brings about, at most. -/
def visits : Const → ℕ
  | expr _ _ ops => 2 + visitsAll ops
  | vector _ els => if els.all isFixedElement then 0 else 1 + els.length + visitsAll els
  | aggregate _ els => if replacedAny els then 1 + els.length + visitsAll els else 0
  | _ => 0
def visitsAll : List Const → ℕ
  | [] => 0
  | c :: cs => visits c + visitsAll cs
end

theorem visits_of_not_replaced {c : Const} (h : c.replaced = false) : c.visits = 0 := by
  cases c with
  | data ty v => rfl
  | undef ty => rfl
  | global g => rfl
  | special kind k => rfl
  | expr op ty ops => simp [replaced] at h
  | vector s els => simp [replaced] at h
  | aggregate ty els =>
    rw [replaced] at h
    simp [visits, h]

theorem visits_of_not_inserts {c : Const} (h : c.inserts = false) : c.visits = 0 := by
  cases c with
  | data ty v => rfl
  | undef ty => rfl
  | global g => rfl
  | special kind k => rfl
  | expr op ty ops => simp [inserts] at h
  | vector s els =>
    have h : els.all isFixedElement = true := by simpa [inserts] using h
    rw [visits, if_pos h]
  | aggregate ty els =>
    have h : replacedAny els = false := h
    simp [visits, h]

theorem visitsAll_eq_zero {cs : List Const} (h : ∀ c ∈ cs, c.visits = 0) : visitsAll cs = 0 := by
  induction cs with
  | nil => rfl
  | cons c cs ih =>
    rw [visitsAll, h c (by simp), ih fun c hc => h c (by simp [hc])]

end Const

/-- How many visits an instruction takes, at most, with those of the instructions inserted for it. -/
def Inst.visits (i : Inst) : ℕ := 1 + if i.isPhi then 0 else Const.visitsAll i.consts

theorem visits_of_inert {i : Inst} (h : i.inert = true) : i.visits = 1 := by
  have := Const.visitsAll_eq_zero fun c hc => Const.visits_of_not_inserts (consts_inert h c hc).1
  simp [Inst.visits, this]

theorem sum_visits_of_inert {is : List Inst} (h : ∀ i ∈ is, i.inert = true) :
    (is.map Inst.visits).sum = is.length := by
  induction is with
  | nil => rfl
  | cons i is ih =>
    rw [List.map_cons, List.sum_cons, visits_of_inert (h i (by simp)), ih fun i hi => h i (by simp [hi])]
    simp [add_comm]

/-- The visits of the instructions inserted for a constant are fewer than those it is counted with. -/
theorem sum_visits_le (c : Const) (n : ℕ) :
    ((fixupConstant n c).insts.map Inst.visits).sum + (if c.inserts then 1 else 0) ≤ c.visits := by
  refine insts_induction
    (p := fun c is => (is.map Inst.visits).sum + (if c.inserts then 1 else 0) ≤ c.visits)
    (q := fun cs is => (is.map Inst.visits).sum ≤ Const.visitsAll cs) ?_ ?_ ?_ ?_ ?_ ?_ ?_ ?_ c n
  · intro c h
    have := (insts_eq_nil c 0).mp (by rw [h])
    simp [this]
  · intro n op ty ops
    have hp : (getAsInstruction n op ty ops).isPhi = false := rfl
    simp only [List.map_cons, List.map_nil, List.sum_cons, List.sum_nil, Inst.visits, hp,
      consts_getAsInstruction, Const.inserts, Const.visits]
    simp +arith
  · intro s els is h hq
    have := @Const.visitsAll_eq_zero els fun c hc => by
      have := List.all_eq_true.mp h c hc
      cases c <;> simp_all [Const.isFixedElement, Const.visits]
    rw [this] at hq
    simpa [Const.inserts, Const.visits, h] using hq
  · intro n s els h hq
    rw [List.map_append, List.sum_append, sum_visits_of_inert (vectorChain_inert n s els), vectorChain,
      length_insertChain, length_operands]
    simp [Const.inserts, Const.visits, h]
    omega
  · intro ty els is h hq
    have := @Const.visitsAll_eq_zero els fun c hc => Const.visits_of_not_replaced (by
      by_contra hr
      have := Const.replacedAny_iff.mpr ⟨c, hc, by simpa using hr⟩
      rw [h] at this
      exact absurd this (by simp))
    rw [this] at hq
    simpa [Const.inserts, Const.visits, h] using hq
  · intro n ty els h hq
    rw [List.map_append, List.sum_append, sum_visits_of_inert (aggregateChain_inert n ty els), aggregateChain,
      length_insertChain, length_operands]
    simp [Const.inserts, Const.visits, h]
    omega
  · simp [Const.visitsAll]
  · intro c cs is js hp hq
    rw [List.map_append, List.sum_append, Const.visitsAll]
    omega

end Tpde.Ir
