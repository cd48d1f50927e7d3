import Tpde.Assembler.ExceptTable

/-!
# The actions of call sites

The clauses of a landing pad become a chain of records in the action table. What is
decoded are the clauses, and `except_type_idx_for_sym` gives the filter that is
decoded, unless a signed number is written whose sign bit is wrong, or a type is
asked for before it has a clause (`actions_roundTrip_iff`).
-/

namespace Tpde.Assembler

open Lsda Leb128 Util ExceptState

/-! ### Sequences of calls -/

/-- A call of one of the `except_*` functions. -/
inductive ExceptOp where
  | addCallSite (textOff len landingPadLabel : ℕ) (isCleanup : Bool)
  | addCleanupAction
  | addAction (firstAction : Bool) (typeSym : ℕ)
  | addEmptySpecAction (firstAction : Bool)
  | typeIdxForSym (sym : ℕ)
  deriving DecidableEq

namespace ExceptState

/-- What a call does to the tables. -/
def step (st : ExceptState) : ExceptOp → ExceptState
  | .addCallSite textOff len landingPadLabel isCleanup =>
    st.exceptAddCallSite textOff len landingPadLabel isCleanup
  | .addCleanupAction => st.exceptAddCleanupAction
  | .addAction firstAction typeSym => st.exceptAddAction firstAction typeSym
  | .addEmptySpecAction firstAction => st.exceptAddEmptySpecAction firstAction
  | .typeIdxForSym _ => st

/-- The tables after a sequence of calls. -/
def run (st : ExceptState) (ops : List ExceptOp) : ExceptState := ops.foldl step st

/-- The symbols that are asked for, with the index they are given. -/
def answers : ExceptState → List ExceptOp → List (ℕ × Option ℕ)
  | _, [] => []
  | st, .typeIdxForSym sym :: ops => (sym, st.exceptTypeIdxForSym sym) :: answers st ops
  | st, op :: ops => answers (st.step op) ops

/-- `P` holds for every call, in the state before it. -/
def Along (P : ExceptState → ExceptOp → Prop) : ExceptState → List ExceptOp → Prop
  | _, [] => True
  | st, op :: ops => P st op ∧ Along P (st.step op) ops

end ExceptState

/-- A clause of a landing pad. The catch-all is that of the invalid symbol. -/
inductive Clause where
  | catch (typeSym : ℕ)
  | emptySpec
  deriving DecidableEq

/-- A call with a landing pad. -/
structure LandingPad where
  textOff : ℕ
  len : ℕ
  label : ℕ
  clauses : List Clause
  cleanup : Bool
  deriving DecidableEq

/-- The call for a clause. -/
def Clause.op (firstAction : Bool) : Clause → ExceptOp
  | .catch typeSym => .addAction firstAction typeSym
  | .emptySpec => .addEmptySpecAction firstAction

/-- The calls for the clauses, of which the first one is marked. -/
def clauseOps : List Clause → List ExceptOp
  | [] => []
  | c :: cs => c.op true :: cs.map (Clause.op false)

/-- The calls for a landing pad, which has clauses or is a cleanup. -/
def LandingPad.ops (pad : LandingPad) : List ExceptOp :=
  .addCallSite pad.textOff pad.len pad.label (pad.cleanup && pad.clauses.isEmpty) :: clauseOps pad.clauses ++
    if pad.cleanup && !pad.clauses.isEmpty then [.addCleanupAction] else []

/-- The call asks for the index of a type. -/
def ExceptOp.isQuery : ExceptOp → Bool
  | .typeIdxForSym _ => true
  | _ => false

/-- What the callers do: the calls for one landing pad after the other, with types asked for anywhere. -/
structure CallsFor (pads : List LandingPad) (ops : List ExceptOp) : Prop where
  calls : ops.filter (fun op => !op.isQuery) = pads.flatMap LandingPad.ops
  clauses : ∀ pad ∈ pads, pad.clauses ≠ [] ∨ pad.cleanup = true
  len : ∀ pad ∈ pads, 0 < pad.len

/-! ### What is decoded -/

/-- What a record means. -/
inductive Handler where
  | clause (c : Clause)
  | cleanup
  deriving DecidableEq

/-- What a filter means: a type counted backwards from the end of the table, as it is relocated, the
cleanup, or a specification counted from the end of the table. -/
def handlerOf (relocs : List (ℕ × ℕ)) (lsda : List UInt8) (base typeBase : ℕ) (filter : ℤ) : Option Handler :=
  if filter = 0 then some .cleanup
  else if 0 < filter then
    let off := typeBase - 4 * filter.toNat
    match relocs.find? fun x => x.2 = base + off with
    | some x => some (.clause (Clause.catch x.1))
    | none => if (lsda.drop off).take 4 = [0, 0, 0, 0] then some (.clause (Clause.catch 0)) else none
  else
    match readUleb (lsda.drop (typeBase + (-filter - 1).toNat)) with
    | some (0, _) => some (.clause Clause.emptySpec)
    | _ => none

/-- The handlers of a landing pad, in order. -/
def LandingPad.handlers (pad : LandingPad) : List Handler :=
  pad.clauses.map Handler.clause ++ if pad.cleanup then [.cleanup] else []

/-- What is asked of the area at `base` in the section: a landing pad with clauses has the action that is
decoded to its handlers, one without has none; and the index that a type of a clause is given is the
filter of its clauses. -/
structure ActionsRoundTrip (st : ExceptState) (pads : List LandingPad) (answers : List (ℕ × Option ℕ))
    (relocs : List (ℕ × ℕ)) (lsda : List UInt8) (base fnStart : ℕ) : Prop where
  decoded : ∀ pad ∈ pads, ∃ e, find lsda (pad.textOff - fnStart) = some e ∧
    if pad.clauses = [] then e.action = 0
    else e.action ≠ 0 ∧ ∃ hdr typeBase fs, readHeader lsda = some hdr ∧ hdr.typeBase = some typeBase ∧
      Chain ((lsda.drop hdr.callSitesEnd).take st.actionTable.length) (e.action - 1) fs ∧
      fs.map (handlerOf relocs lsda base typeBase) = pad.handlers.map some
  answered : ∀ x ∈ answers, ∀ pad ∈ pads, x.1 ≠ 0 → Clause.catch x.1 ∈ pad.clauses → ∃ idx : ℕ,
    x.2 = some idx ∧
    ∀ (hdr : Header) (e : Entry) (fs : List ℤ), readHeader lsda = some hdr →
      find lsda (pad.textOff - fnStart) = some e →
      Chain ((lsda.drop hdr.callSitesEnd).take st.actionTable.length) (e.action - 1) fs →
      ∀ j : ℕ, pad.clauses[j]? = some (Clause.catch x.1) → fs[j]? = some (idx : ℤ)

/-- The call does what it should: a signed number that it writes is read back, and a type of a clause
that it asks for is in the table. -/
def OpFits (pads : List LandingPad) (st : ExceptState) : ExceptOp → Prop
  | .addAction _ typeSym => SlebFits ((st.typeInfoIdx typeSym).2 + 1)
  | .addCleanupAction => SlebFits (-((st.actionTable.length - 1 : ℕ) : ℤ))
  | .typeIdxForSym sym => sym ≠ 0 → (∃ pad ∈ pads, Clause.catch sym ∈ pad.clauses) → sym ∈ st.typeInfoTable
  | _ => True

/-! ### The bytes of the action table -/

/-- The bytes of one landing pad: only the last one can be zero, and its first number is not zero. -/
def SegOk (seg : List UInt8) : Prop :=
  (∀ a b, seg = a ++ 0 :: b → b = []) ∧ ∀ rest, ∃ w r, w ≠ 0 ∧ readSleb (seg ++ rest) = some (w, r)

/-- The action table behind its first entry. -/
inductive Segments : List UInt8 → Prop
  | nil : Segments []
  | snoc {t seg : List UInt8} (h : Segments t) (hseg : SegOk seg) : Segments (t ++ seg)

/-- Behind a zero byte the table ends, or a landing pad starts. -/
theorem Segments.behind_zero {t : List UInt8} (h : Segments t) :
    ∀ {a b : List UInt8}, t = a ++ 0 :: b → b = [] ∨ ∀ rest, ∃ w r, w ≠ 0 ∧
      readSleb (b ++ rest) = some (w, r) := by
  induction h with
  | nil =>
    intro a b h
    have hlen := congrArg List.length h
    simp at hlen
  | snoc _ hseg ih =>
    intro a b heq
    rcases List.append_eq_append_iff.mp heq with ⟨c, rfl, hc⟩ | ⟨c, rfl, hc⟩
    · exact .inl (hseg.1 c b hc)
    · cases c with
      | nil => exact .inl (hseg.1 [] b hc.symm)
      | cons x c =>
        obtain ⟨rfl, rfl⟩ := List.cons.inj hc
        refine .inr fun rest => ?_
        rw [show c.append _ ++ rest = c ++ (_ ++ rest) from List.append_assoc _ _ _]
        rcases ih rfl with rfl | hread
        · exact hseg.2 rest
        · exact hread _

/-- There is no second cleanup entry. -/
theorem Segments.no_cleanup {t : List UInt8} (h : Segments t) {off : ℕ} {r r' : List UInt8}
    (hf : readSleb (t.drop off) = some (0, r)) : readSleb r ≠ some (0, r') := by
  intro hl
  obtain ⟨bs, hbs⟩ := readSleb_zero hf
  have ht : t = (t.take off ++ bs) ++ 0 :: r := by rw [List.append_assoc, ← hbs, List.take_append_drop]
  rcases h.behind_zero ht with rfl | hread
  · cases hl
  · obtain ⟨w, r'', hw, hr⟩ := hread []
    rw [List.append_nil, hl] at hr
    exact hw (Prod.mk.inj (Option.some.inj hr)).1.symm

/-- The records of filters, without the last link. -/
def records (v : ℤ) (vs : List ℤ) : List UInt8 := slebWrite v ++ vs.flatMap fun v => 1 :: slebWrite v

/-- The bytes for filters, behind `n` bytes. -/
def padBytes (n : ℕ) (v : ℤ) (vs : List ℤ) (cleanup : Bool) : List UInt8 :=
  records v vs ++ if cleanup then slebWrite (-((n + (records v vs).length : ℕ) : ℤ)) else [0]

/-- **A chain of records** is read as they are read back, up to its last link. -/
theorem chain_records {table tail : List UInt8} : ∀ {vs : List ℤ} {v : ℤ} {pre : List UInt8} {fs : List ℤ},
    table = pre ++ (records v vs ++ tail) →
      (Chain table pre.length fs ↔ ∃ es link r', fs = (v :: vs).map slebReadBack ++ es ∧
        readSleb tail = some (link, r') ∧
        (link = 0 ∧ es = [] ∨
          link ≠ 0 ∧ ∃ off' : ℕ, ((pre.length + (records v vs).length : ℕ) : ℤ) + link = off' ∧
            Chain table off' es))
  | [], v, pre, fs, htable => by
    have hrec : records v [] = slebWrite v := List.append_nil _
    have hread : readSleb (table.drop pre.length) = some (slebReadBack v, tail) := by
      rw [htable, List.drop_left, hrec, slebWrite_isSleb]
    have hlen : table.length - tail.length = pre.length + (records v []).length := by
      rw [htable, List.length_append, List.length_append]
      omega
    rw [chain_iff hread, hlen]
    rfl
  | u :: us, v, pre, fs, htable => by
    have hrec : records v (u :: us) = slebWrite v ++ 1 :: records u us := by
      simp [records]
    have hread : readSleb (table.drop pre.length) = some (slebReadBack v, 1 :: (records u us ++ tail)) := by
      rw [htable, List.drop_left, hrec, List.append_assoc, slebWrite_isSleb]
      rfl
    have hlink : readSleb (1 :: (records u us ++ tail)) = some (1, records u us ++ tail) := rfl
    have htable' : table = (pre ++ (slebWrite v ++ [1])) ++ (records u us ++ tail) := by
      rw [htable, hrec]
      simp
    have hlen : (table.length - (1 :: (records u us ++ tail)).length : ℕ) + 1 =
      (pre ++ (slebWrite v ++ [1])).length := by
      rw [htable', List.length_append, List.length_cons, List.length_append, List.length_append,
        List.length_singleton]
      omega
    have hsum : (pre ++ (slebWrite v ++ [1])).length + (records u us).length =
      pre.length + (records v (u :: us)).length := by
      rw [hrec]
      simp
      omega
    have ih fs := @chain_records _ _ us u _ fs htable'
    rw [hsum] at ih
    rw [chain_iff hread]
    constructor
    · rintro ⟨es, link, r', rfl, hl, hrest⟩
      obtain ⟨rfl, rfl⟩ : 1 = link ∧ _ = r' := by simpa using hlink.symm.trans hl
      rcases hrest with ⟨h1, -⟩ | ⟨-, off', hoff, hchain⟩
      · exact absurd h1 one_ne_zero
      · obtain rfl : (pre ++ (slebWrite v ++ [1])).length = off' := by
          rw [← hlen]
          exact_mod_cast hoff
        obtain ⟨es', link', r', rfl, hl', hrest⟩ := (ih es).mp hchain
        exact ⟨es', link', r', rfl, hl', hrest⟩
    · rintro ⟨es, link, r', rfl, hl, hrest⟩
      refine ⟨_, 1, _, rfl, hlink, .inr ⟨one_ne_zero, (pre ++ (slebWrite v ++ [1])).length, ?_, ?_⟩⟩
      · rw [← hlen]
        push_cast
        rfl
      · exact (ih _).mpr ⟨es, link, r', rfl, hl, hrest⟩

/-- The link to the cleanup entry, behind `n` bytes. -/
def cleanupLink (n : ℕ) (v : ℤ) (vs : List ℤ) : ℤ := -((n + (records v vs).length : ℕ) : ℤ)

section
variable {table pre post : List UInt8} {v : ℤ} {vs : List ℤ} {cleanup : Bool}

theorem records_pos : 0 < (records v vs).length := by
  rw [records, List.length_append]
  have := List.length_pos_of_ne_nil (@slebWrite_ne_nil v)
  omega

/-- The first entry of the table is the cleanup. -/
theorem chain_cleanup (h : ∃ t, table = 0 :: 0 :: t) : Chain table 0 [0] := by
  obtain ⟨t, rfl⟩ := h
  exact .last rfl rfl

/-- The chain of a landing pad, when the link to the cleanup entry is read back. -/
theorem chain_pad (htable : table = pre ++ (padBytes pre.length v vs cleanup ++ post))
    (hfirst : ∃ t, table = 0 :: 0 :: t)
    (hlink : cleanup = true → SlebFits (cleanupLink pre.length v vs)) :
    Chain table pre.length ((v :: vs).map slebReadBack ++ if cleanup then [0] else []) := by
  rw [padBytes, List.append_assoc] at htable
  refine (chain_records htable).mpr ?_
  cases cleanup with
  | false => exact ⟨[], 0, post, rfl, rfl, .inl ⟨rfl, rfl⟩⟩
  | true =>
    have hread := slebWrite_isSleb (cleanupLink pre.length v vs) post
    rw [slebReadBack_eq_iff.mpr (hlink rfl)] at hread
    have hpos := @records_pos v vs
    refine ⟨[0], _, post, rfl, hread, .inr ⟨?_, 0, ?_, chain_cleanup hfirst⟩⟩
    · rw [cleanupLink]
      omega
    · rw [cleanupLink]
      omega

/-- A chain that ends with the cleanup has read back the link to it. -/
theorem fits_of_chain (htable : table = pre ++ (padBytes pre.length v vs true ++ post))
    (hsegs : ∃ t, table = 0 :: 0 :: t ∧ Segments t)
    (h : Chain table pre.length ((v :: vs).map slebReadBack ++ [0])) :
      SlebFits (cleanupLink pre.length v vs) := by
  rw [padBytes, List.append_assoc] at htable
  obtain ⟨es, link, r', hes, hread, hrest⟩ := (chain_records htable).mp h
  obtain rfl : [0] = es := List.append_cancel_left hes
  have hread' := slebWrite_isSleb (cleanupLink pre.length v vs) post
  obtain ⟨rfl, -⟩ : slebReadBack (cleanupLink pre.length v vs) = link ∧ post = r' := by
    simpa using hread'.symm.trans hread
  have hpos := @records_pos v vs
  by_contra hfits
  obtain ⟨k, hk⟩ := slebReadBack_pos (show cleanupLink pre.length v vs < 0 by rw [cleanupLink]; omega) hfits
  rcases hrest with ⟨-, hnil⟩ | ⟨-, off', hoff, hchain⟩
  · cases hnil
  · -- the link leads behind the first entry, where there is no cleanup
    obtain ⟨t, rfl, ht⟩ := hsegs
    have hoff' : off' = 128 ^ (k + 1) := by
      rw [hk, cleanupLink] at hoff
      have : (off' : ℤ) = 128 ^ (k + 1) := by omega
      exact_mod_cast this
    obtain ⟨n, rfl⟩ : ∃ n, off' = n + 2 := by
      have : 128 ^ 1 ≤ 128 ^ (k + 1) := Nat.pow_le_pow_right (by decide) (by omega)
      exact ⟨off' - 2, by omega⟩
    cases hchain with
    | last hf hl => exact ht.no_cleanup hf hl
    | next _ _ _ _ hrest => cases hrest

end

/-- The bytes of filters that are positive or -1. -/
theorem segOk_padBytes {n : ℕ} {v : ℤ} {vs : List ℤ} {cleanup : Bool} (h : ∀ u ∈ v :: vs, 0 < u ∨ u = -1) :
    SegOk (padBytes n v vs cleanup) := by
  have hzero : ∀ u ∈ v :: vs, (0 : UInt8) ∉ slebWrite u := by
    intro u hu
    rcases h u hu with h | rfl
    · exact slebGroups_no_zero h
    · decide
  have hrecs : (0 : UInt8) ∉ records v vs := by
    simp only [records, List.mem_append, List.mem_flatMap, List.mem_cons, not_or, not_exists, not_and]
    exact ⟨hzero v List.mem_cons_self, fun u hu => ⟨by decide, hzero u (List.mem_cons_of_mem _ hu)⟩⟩
  refine ⟨fun a b heq => ?_, fun rest => ?_⟩
  · rcases List.append_eq_append_iff.mp heq with ⟨c, rfl, hc⟩ | ⟨c, hc, hb⟩
    · cases cleanup with
      | false =>
        exact (List.append_eq_singleton_iff.mp hc.symm).elim (fun h => (List.cons.inj h.2).2) fun h =>
          nomatch h.2
      | true => exact slebGroups_zero_last hc
    · cases c with
      | nil =>
        cases cleanup with
        | false => exact (List.cons.inj hb).2
        | true => exact @slebGroups_zero_last _ _ [] b hb.symm
      | cons x c =>
        obtain ⟨rfl, -⟩ := List.cons.inj hb
        exact absurd (hc ▸ List.mem_append_right a List.mem_cons_self) hrecs
  · obtain ⟨r, hr⟩ : ∃ r, readSleb (padBytes n v vs cleanup ++ rest) = some (slebReadBack v, r) := by
      rw [padBytes, records, List.append_assoc, List.append_assoc, slebWrite_isSleb v]
      exact ⟨_, rfl⟩
    refine ⟨slebReadBack v, r, ?_, hr⟩
    rcases h v List.mem_cons_self with h | rfl
    · exact slebReadBack_ne_zero h
    · rw [slebReadBack_eq_iff.mpr slebFits_neg_one]
      decide

/-! ### The calls for a landing pad -/

/-- The filter of a clause, for a table of types. -/
def Clause.filter (types : List ℕ) : Clause → ℤ
  | .catch typeSym => if typeSym = 0 then 1 else types.idxOf typeSym + 2
  | .emptySpec => -1

theorem Clause.filter_pos_or (types : List ℕ) (c : Clause) : 0 < c.filter types ∨ c.filter types = -1 := by
  cases c with
  | «catch» sym =>
    rw [Clause.filter]
    split <;> omega
  | emptySpec => exact .inr rfl

namespace ExceptState

variable {st : ExceptState} {types : List ℕ}

theorem run_append (st : ExceptState) (ops ops' : List ExceptOp) :
    st.run (ops ++ ops') = (st.run ops).run ops' :=
  List.foldl_append

/-- A type keeps its index. -/
theorem idxOf_of_mem {t : List ℕ} {sym : ℕ} (h : t <+: types) (hmem : sym ∈ t) :
    types.idxOf sym = t.idxOf sym := by
  obtain ⟨t', rfl⟩ := h
  exact List.idxOf_append_of_mem hmem

theorem typeInfoIdx_types (st : ExceptState) (sym : ℕ) :
    st.typeInfoTable <+: (st.typeInfoIdx sym).1.typeInfoTable ∧
      (sym ≠ 0 → sym ∈ (st.typeInfoIdx sym).1.typeInfoTable) := by
  rw [typeInfoIdx]
  split
  · rename_i h0
    exact ⟨List.prefix_refl _, fun h => absurd h0 h⟩
  · split
    · rename_i hmem
      exact ⟨List.prefix_refl _, fun _ => hmem⟩
    · exact ⟨List.prefix_append _ _, fun _ => by simp⟩

/-- The index of a type is its place in any later table. -/
theorem typeInfoIdx_filter {sym : ℕ} (h : (st.typeInfoIdx sym).1.typeInfoTable <+: types) :
    ((st.typeInfoIdx sym).2 : ℤ) + 1 = (Clause.catch sym).filter types := by
  rw [Clause.filter]
  by_cases h0 : sym = 0
  · rw [typeInfoIdx, if_pos h0, if_pos h0]
    rfl
  · have hidx := idxOf_of_mem h ((typeInfoIdx_types st sym).2 h0)
    rw [if_neg h0, hidx]
    by_cases hmem : sym ∈ st.typeInfoTable
    · rw [typeInfoIdx, if_neg h0, if_pos hmem]
      push_cast
      ring
    · rw [typeInfoIdx, if_neg h0, if_neg hmem]
      simp only [List.idxOf_append_of_notMem hmem, List.idxOf_cons_self]
      push_cast
      ring

/-- Types are only added. -/
theorem step_types (st : ExceptState) (op : ExceptOp) : st.typeInfoTable <+: (st.step op).typeInfoTable := by
  have hlink (b : Bool) : (st.linkLast b).typeInfoTable = st.typeInfoTable := by
    cases b <;> rfl
  cases op with
  | addCallSite => exact List.prefix_refl _
  | addCleanupAction => exact List.prefix_refl _
  | addAction firstAction typeSym =>
    have h := (typeInfoIdx_types (st.linkLast firstAction) typeSym).1
    rwa [hlink] at h
  | addEmptySpecAction firstAction =>
    show st.typeInfoTable <+: (st.linkLast firstAction).typeInfoTable
    rw [hlink]
  | typeIdxForSym => exact List.prefix_refl _

theorem run_types : ∀ (ops : List ExceptOp) (st : ExceptState),
    st.typeInfoTable <+: (st.run ops).typeInfoTable
  | [], _ => List.prefix_refl _
  | op :: ops, st => (step_types st op).trans (run_types ops (st.step op))

/-- The index does not depend on the other tables. -/
theorem typeInfoIdx_linkLast (st : ExceptState) (firstAction : Bool) (sym : ℕ) :
    ((st.linkLast firstAction).typeInfoIdx sym).2 = (st.typeInfoIdx sym).2 ∧
      ((st.linkLast firstAction).typeInfoIdx sym).1.typeInfoTable = (st.typeInfoIdx sym).1.typeInfoTable ∧
      ((st.linkLast firstAction).typeInfoIdx sym).1.actionTable = (st.linkLast firstAction).actionTable ∧
      ((st.linkLast firstAction).typeInfoIdx sym).1.callSiteTable = st.callSiteTable := by
  have hlink : (st.linkLast firstAction).typeInfoTable = st.typeInfoTable ∧
      (st.linkLast firstAction).callSiteTable = st.callSiteTable := by
    cases firstAction <;> exact ⟨rfl, rfl⟩
  simp only [typeInfoIdx, hlink.1]
  split
  · exact ⟨rfl, hlink.1, rfl, hlink.2⟩
  · split
    · exact ⟨rfl, hlink.1, rfl, hlink.2⟩
    · exact ⟨rfl, rfl, rfl, hlink.2⟩

/-- What the call for a clause writes, and when it does what it should. -/
theorem step_clause (c : Clause) (firstAction : Bool) (pads : List LandingPad)
    (h : (st.step (c.op firstAction)).typeInfoTable <+: types) :
    (st.step (c.op firstAction)).actionTable = (st.linkLast firstAction).actionTable ++
      slebWrite (c.filter types) ++ [0] ∧
      (st.step (c.op firstAction)).callSiteTable = st.callSiteTable ∧
      (OpFits pads st (c.op firstAction) ↔ SlebFits (c.filter types)) := by
  cases c with
  | «catch» sym =>
    obtain ⟨hidx, htypes, hacts, hsites⟩ := typeInfoIdx_linkLast st firstAction sym
    have hfilter : ((st.typeInfoIdx sym).2 : ℤ) + 1 = (Clause.catch sym).filter types :=
      typeInfoIdx_filter (htypes ▸ h)
    refine ⟨?_, hsites, ?_⟩
    · show ((st.linkLast firstAction).typeInfoIdx sym).1.actionTable ++
        slebWrite ((((st.linkLast firstAction).typeInfoIdx sym).2 : ℤ) + 1) ++ [0] = _
      rw [hacts, hidx, hfilter]
    · show SlebFits ((st.typeInfoIdx sym).2 + 1) ↔ _
      rw [hfilter]
  | emptySpec =>
    refine ⟨?_, ?_, iff_of_true trivial slebFits_neg_one⟩
    · show (st.linkLast firstAction).actionTable ++ [127, 0] = (st.linkLast firstAction).actionTable ++
        slebWrite (-1) ++ [0]
      rw [slebWrite_neg_one, List.append_assoc]
      rfl
    · cases firstAction <;> rfl

/-- The calls for the other clauses, each linked to the one before. -/
theorem run_clauses (pads : List LandingPad) : ∀ {cs : List Clause} {st : ExceptState} {acts : List UInt8},
    st.actionTable = acts ++ [0] → (st.run (cs.map (Clause.op false))).typeInfoTable <+: types →
      (st.run (cs.map (Clause.op false))).actionTable =
          acts ++ ((cs.map (Clause.filter types)).flatMap fun v => 1 :: slebWrite v) ++ [0] ∧
        (st.run (cs.map (Clause.op false))).callSiteTable = st.callSiteTable ∧
        (Along (OpFits pads) st (cs.map (Clause.op false)) ↔ ∀ c ∈ cs, SlebFits (c.filter types))
  | [], st, acts, hacts, _ => ⟨by simpa [run] using hacts, rfl, iff_of_true trivial (by simp)⟩
  | c :: cs, st, acts, hacts, htypes => by
    obtain ⟨hstep, hsites, hfits⟩ := @step_clause st types c false pads
      ((run_types _ _).trans htypes)
    have hlink : (st.linkLast false).actionTable = acts ++ [1] := by
      show st.actionTable.dropLast ++ [1] = _
      rw [hacts, List.dropLast_concat]
    rw [hlink] at hstep
    obtain ⟨ihacts, ihsites, ihfits⟩ := run_clauses pads hstep htypes
    refine ⟨?_, ihsites.trans hsites, ?_⟩
    · refine ihacts.trans ?_
      simp only [List.map_cons, List.flatMap_cons, List.append_assoc, List.nil_append, List.cons_append]
    · rw [List.forall_mem_cons, ← hfits, ← ihfits]
      rfl

/-- What a pad writes behind `n` bytes. -/
def padSeg (types : List ℕ) (n : ℕ) (pad : LandingPad) : List UInt8 :=
  match pad.clauses.map (Clause.filter types) with
  | [] => []
  | v :: vs => padBytes n v vs pad.cleanup

/-- The numbers of a pad, whose actions are behind `n` bytes, are read back. -/
def PadFits (types : List ℕ) (pad : LandingPad) (n : ℕ) : Prop :=
  (∀ c ∈ pad.clauses, SlebFits (c.filter types)) ∧
    ∀ v vs, pad.clauses.map (Clause.filter types) = v :: vs → pad.cleanup = true →
      SlebFits (cleanupLink n v vs)

/-- The call site of a pad. -/
def padSite (pad : LandingPad) (n : ℕ) : ExceptCallSiteInfo :=
  ⟨pad.textOff, pad.len, pad.label, if pad.clauses = [] then 0 else n + 1⟩

theorem along_append {P : ExceptState → ExceptOp → Prop} : ∀ {ops ops' : List ExceptOp} {st : ExceptState},
    Along P st (ops ++ ops') ↔ Along P st ops ∧ Along P (st.run ops) ops'
  | [], _, _ => (and_iff_right trivial).symm
  | op :: ops, ops', st => by
    show P st op ∧ Along P (st.step op) (ops ++ ops') ↔ (P st op ∧ Along P (st.step op) ops) ∧ _
    rw [along_append, and_assoc]
    rfl

/-- What the calls for a pad do. -/
theorem run_pad {pad : LandingPad} (pads : List LandingPad) (hpad : pad.clauses ≠ [] ∨ pad.cleanup = true)
    (htypes : (st.run pad.ops).typeInfoTable <+: types) :
    (st.run pad.ops).actionTable = st.actionTable ++ padSeg types st.actionTable.length pad ∧
      (st.run pad.ops).callSiteTable = st.callSiteTable ++ [padSite pad st.actionTable.length] ∧
      (Along (OpFits pads) st pad.ops ↔ PadFits types pad st.actionTable.length) := by
  obtain ⟨textOff, len, label, clauses, cleanup⟩ := pad
  cases clauses with
  | nil =>
    obtain rfl : cleanup = true := hpad.resolve_left fun h => h rfl
    refine ⟨(List.append_nil _).symm, rfl, iff_of_true ⟨trivial, trivial⟩ ⟨by simp, fun _ _ h => by cases h⟩⟩
  | cons c cs =>
    have hops : LandingPad.ops ⟨textOff, len, label, c :: cs, cleanup⟩ =
        [.addCallSite textOff len label false, c.op true] ++ (cs.map (Clause.op false) ++
          if cleanup then [.addCleanupAction] else []) := by
      cases cleanup <;> rfl
    rw [hops] at htypes ⊢
    set st' := st.exceptAddCallSite textOff len label false with hst'
    have hrun (rest : List ExceptOp) : st.run ([.addCallSite textOff len label false, c.op true] ++ rest) =
        (st'.step (c.op true)).run rest := rfl
    rw [hrun, run_append] at htypes
    rw [hrun, run_append, along_append, along_append]
    obtain ⟨hacts₁, hsites₁, hfits₁⟩ := @step_clause st' types c true pads
      (((run_types _ _).trans (run_types _ _)).trans htypes)
    obtain ⟨hacts₂, hsites₂, hfits₂⟩ := run_clauses pads hacts₁ ((run_types _ _).trans htypes)
    have hrecs : (st'.linkLast true).actionTable ++ slebWrite (c.filter types) ++
        ((cs.map (Clause.filter types)).flatMap fun v => 1 :: slebWrite v) =
          st.actionTable ++ records (c.filter types) (cs.map (Clause.filter types)) := by
      rw [records, ← List.append_assoc]
      rfl
    rw [hrecs] at hacts₂
    have hsites : ((st'.step (c.op true)).run (cs.map (Clause.op false))).callSiteTable =
        st.callSiteTable ++ [padSite ⟨textOff, len, label, c :: cs, cleanup⟩ st.actionTable.length] :=
      hsites₂.trans hsites₁
    have hfits : Along (OpFits pads) st [.addCallSite textOff len label false, c.op true] ↔
      SlebFits (c.filter types) := by
      rw [← hfits₁]
      exact ⟨fun h => h.2.1, fun h => ⟨trivial, h, trivial⟩⟩
    have hclauses : ((∀ c' ∈ c :: cs, SlebFits (c'.filter types)) ↔
        SlebFits (c.filter types) ∧ ∀ c' ∈ cs, SlebFits (c'.filter types)) := List.forall_mem_cons
    rw [hfits]
    show _ ∧ _ ∧ (_ ∧ Along (OpFits pads) (st'.step (c.op true)) (cs.map (Clause.op false)) ∧ _ ↔ _)
    rw [hfits₂]
    cases cleanup with
    | false =>
      refine ⟨?_, hsites, ?_⟩
      · refine hacts₂.trans ?_
        rw [List.append_assoc]
        rfl
      · rw [PadFits, hclauses]
        exact ⟨fun h => ⟨⟨h.1, h.2.1⟩, fun _ _ _ h => by cases h⟩, fun h => ⟨h.1.1, h.1.2, trivial⟩⟩
    | true =>
      have hdrop : ((st'.step (c.op true)).run (cs.map (Clause.op false))).actionTable.dropLast =
          st.actionTable ++ records (c.filter types) (cs.map (Clause.filter types)) := by
        rw [hacts₂, List.dropLast_concat]
      refine ⟨?_, hsites, ?_⟩
      · show ((st'.step (c.op true)).run (cs.map (Clause.op false))).actionTable.dropLast ++
          slebWrite
            (-((((st'.step (c.op true)).run
            (cs.map (Clause.op false))).actionTable.dropLast.length : ℕ) : ℤ)) = _
        rw [hdrop, List.length_append, List.append_assoc]
        rfl
      · have hlen : ((st'.step (c.op true)).run (cs.map (Clause.op false))).actionTable.length - 1 =
            st.actionTable.length + (records (c.filter types) (cs.map (Clause.filter types))).length := by
          rw [← List.length_dropLast, hdrop, List.length_append]
        have hlink : Along (OpFits pads) ((st'.step (c.op true)).run (cs.map (Clause.op false)))
            (if true then [.addCleanupAction] else []) ↔
              SlebFits
                (cleanupLink st.actionTable.length (c.filter types) (cs.map (Clause.filter types))) := by
          show SlebFits
            (-((((st'.step (c.op true)).run (cs.map (Clause.op false))).actionTable.length - 1 : ℕ) : ℤ)) ∧
            True ↔ _
          rw [hlen, and_true, cleanupLink]
        rw [PadFits, hclauses]
        constructor
        · rintro ⟨h₁, h₂, h₃⟩
          refine ⟨⟨h₁, h₂⟩, fun v vs h _ => ?_⟩
          obtain ⟨rfl, rfl⟩ := List.cons.inj h
          exact hlink.mp h₃
        · rintro ⟨⟨h₁, h₂⟩, h₃⟩
          exact ⟨h₁, h₂, hlink.mpr (h₃ _ _ rfl rfl)⟩

/-- The bytes of a pad are in the action table, behind `n` bytes. -/
def PadAt (types : List ℕ) (acts : List UInt8) (pad : LandingPad) (n : ℕ) : Prop :=
  ∃ pre post, pre.length = n ∧ acts = pre ++ (padSeg types n pad ++ post)

/-- **The calls for landing pads**, one after the other: where the actions of each one are. -/
theorem run_pads (pads : List LandingPad) : ∀ {todo : List LandingPad} {st : ExceptState} {t : List UInt8},
    (∀ pad ∈ todo, pad.clauses ≠ [] ∨ pad.cleanup = true) → st.actionTable = 0 :: 0 :: t → Segments t →
      (st.run (todo.flatMap LandingPad.ops)).typeInfoTable <+: types →
      ∃ (done : List (LandingPad × ℕ)) (t' : List UInt8), done.map Prod.fst = todo ∧
        (st.run (todo.flatMap LandingPad.ops)).actionTable = 0 :: 0 :: (t ++ t') ∧ Segments (t ++ t') ∧
        (st.run (todo.flatMap LandingPad.ops)).callSiteTable =
          st.callSiteTable ++ done.map (fun x => padSite x.1 x.2) ∧
        (∀ x ∈ done, PadAt types (0 :: 0 :: (t ++ t')) x.1 x.2) ∧
        (Along (OpFits pads) st (todo.flatMap LandingPad.ops) ↔ ∀ x ∈ done, PadFits types x.1 x.2)
  | [], st, t, _, hacts, hsegs, _ => by
    refine ⟨[], [], rfl, ?_, ?_, ?_, nofun, iff_of_true trivial nofun⟩
    · rwa [List.append_nil]
    · rwa [List.append_nil]
    · exact (List.append_nil _).symm
  | pad :: todo, st, t, hpads, hacts, hsegs, htypes => by
    rw [List.flatMap_cons, run_append] at htypes
    obtain ⟨hacts', hsites', hfits'⟩ :=
      run_pad pads (hpads pad List.mem_cons_self) ((run_types _ _).trans htypes)
    rw [hacts] at hacts' hsites' hfits'
    rw [List.cons_append, List.cons_append] at hacts'
    have hsegs' : Segments (t ++ padSeg types (0 :: 0 :: t).length pad) := by
      unfold padSeg
      split
      · rwa [List.append_nil]
      · rename_i v vs hvs
        refine .snoc hsegs (segOk_padBytes fun u hu => ?_)
        obtain ⟨c, -, rfl⟩ := List.mem_map.mp (hvs ▸ hu)
        exact c.filter_pos_or types
    obtain ⟨done, t', hdone, ihacts, ihsegs, ihsites, ihat, ihfits⟩ := run_pads pads
      (fun pad' h => hpads pad' (List.mem_cons_of_mem _ h)) hacts' hsegs' htypes
    refine ⟨(pad, (0 :: 0 :: t).length) :: done, padSeg types (0 :: 0 :: t).length pad ++ t', ?_, ?_,
      ?_, ?_, ?_, ?_⟩
    · rw [List.map_cons, hdone]
    · rw [List.flatMap_cons, run_append, ihacts, List.append_assoc]
    · rwa [← List.append_assoc]
    · rw [List.flatMap_cons, run_append, ihsites, hsites', List.append_assoc]
      rfl
    · rw [← List.append_assoc]
      refine List.forall_mem_cons.mpr ⟨⟨0 :: 0 :: t, t', rfl, ?_⟩, ihat⟩
      rw [List.append_assoc]
      rfl
    · rw [List.flatMap_cons, along_append, hfits', ihfits, List.forall_mem_cons]

/-- Asking for an index changes nothing. -/
theorem run_filter : ∀ (ops : List ExceptOp) (st : ExceptState),
    st.run (ops.filter fun op => !op.isQuery) = st.run ops
  | [], _ => rfl
  | .typeIdxForSym _ :: ops, st => run_filter ops st
  | .addCallSite .. :: ops, _ => run_filter ops _
  | .addCleanupAction :: ops, _ => run_filter ops _
  | .addAction .. :: ops, _ => run_filter ops _
  | .addEmptySpecAction _ :: ops, _ => run_filter ops _

/-- Every type of a clause that is asked for is given an index. -/
def AnswersFit (pads : List LandingPad) (answers : List (ℕ × Option ℕ)) : Prop :=
  ∀ x ∈ answers, x.1 ≠ 0 → (∃ pad ∈ pads, Clause.catch x.1 ∈ pad.clauses) → x.2 ≠ none

theorem along_filter (pads : List LandingPad) : ∀ (ops : List ExceptOp) (st : ExceptState),
    Along (OpFits pads) st ops ↔
      Along (OpFits pads) st (ops.filter fun op => !op.isQuery) ∧ AnswersFit pads (answers st ops)
  | [], _ => iff_of_true trivial ⟨trivial, nofun⟩
  | .typeIdxForSym sym :: ops, st => by
    have hquery : OpFits pads st (.typeIdxForSym sym) ↔
        (sym ≠ 0 → (∃ pad ∈ pads, Clause.catch sym ∈ pad.clauses) → st.exceptTypeIdxForSym sym ≠ none) := by
      have hsome : st.exceptTypeIdxForSym sym ≠ none ↔ sym ∈ st.typeInfoTable := by
        simp [exceptTypeIdxForSym]
      rw [hsome]
      rfl
    show OpFits pads st (.typeIdxForSym sym) ∧ Along (OpFits pads) st ops ↔
      Along (OpFits pads) st (ops.filter _) ∧
      AnswersFit pads ((sym, st.exceptTypeIdxForSym sym) :: answers st ops)
    rw [AnswersFit, List.forall_mem_cons, ← hquery, along_filter pads ops st, AnswersFit]
    tauto
  | .addCallSite .. :: ops, st => (and_congr_right' (along_filter pads ops _)).trans and_assoc.symm
  | .addCleanupAction :: ops, st => (and_congr_right' (along_filter pads ops _)).trans and_assoc.symm
  | .addAction .. :: ops, st => (and_congr_right' (along_filter pads ops _)).trans and_assoc.symm
  | .addEmptySpecAction _ :: ops, st => (and_congr_right' (along_filter pads ops _)).trans and_assoc.symm

/-- An index that is given is the filter of the type's clauses. -/
theorem answers_some {sym idx : ℕ} (h0 : sym ≠ 0) : ∀ (ops : List ExceptOp) {st : ExceptState},
    (sym, some idx) ∈ answers st ops → (idx : ℤ) = (Clause.catch sym).filter (st.run ops).typeInfoTable
  | [], _, h => nomatch h
  | .typeIdxForSym sym' :: ops, st, h => by
    rcases List.mem_cons.mp h with heq | h
    · obtain ⟨rfl, hidx⟩ := Prod.mk.inj heq
      rw [exceptTypeIdxForSym] at hidx
      split at hidx
      · rename_i hmem
        rw [Clause.filter, if_neg h0, idxOf_of_mem (run_types _ _) hmem, Option.some.inj hidx]
        push_cast
        rfl
      · cases hidx
    · exact answers_some h0 ops h
  | .addCallSite .. :: ops, st, h => answers_some h0 ops h
  | .addCleanupAction :: ops, st, h => answers_some h0 ops h
  | .addAction .. :: ops, st, h => answers_some h0 ops h
  | .addEmptySpecAction _ :: ops, st, h => answers_some h0 ops h

/-- What a call does to the specifications. -/
theorem step_spec (st : ExceptState) (op : ExceptOp) : (st.step op).specTable =
    match op with
    | .addEmptySpecAction _ => if st.specTable = [] then [0, 0, 0, 0] else st.specTable
    | _ => st.specTable := by
  have hlink (b : Bool) : (st.linkLast b).specTable = st.specTable := by
    cases b <;> rfl
  cases op with
  | addCallSite => rfl
  | addCleanupAction => rfl
  | typeIdxForSym => rfl
  | addAction firstAction sym =>
    show ((st.linkLast firstAction).typeInfoIdx sym).1.specTable = st.specTable
    rw [typeInfoIdx]
    split_ifs <;> exact hlink firstAction
  | addEmptySpecAction firstAction =>
    show (if (st.linkLast firstAction).specTable = [] then _ else (st.linkLast firstAction).specTable) = _
    rw [hlink]

/-- The type of a clause that was added is in the table. -/
theorem run_mem_types {sym : ℕ} {firstAction : Bool} (h0 : sym ≠ 0) :
    ∀ (ops : List ExceptOp) {st : ExceptState},
    .addAction firstAction sym ∈ ops → sym ∈ (st.run ops).typeInfoTable
  | op :: ops, st, h => by
    cases h with
    | head =>
      refine (run_types ops _).subset ?_
      show sym ∈ ((st.linkLast firstAction).typeInfoIdx sym).1.typeInfoTable
      rw [(typeInfoIdx_linkLast st firstAction sym).2.1]
      exact (typeInfoIdx_types st sym).2 h0
    | tail _ h => exact run_mem_types h0 ops h

/-- There is a specification, of an empty list, if one was added. -/
theorem run_spec {firstAction : Bool} : ∀ (ops : List ExceptOp) {st : ExceptState},
    st.specTable = [0, 0, 0, 0] ∨ st.specTable = [] ∧ .addEmptySpecAction firstAction ∈ ops →
      (st.run ops).specTable = [0, 0, 0, 0]
  | [], st, h => h.resolve_right fun h => nomatch h.2
  | op :: ops, st, h => by
    refine @run_spec firstAction ops _ ?_
    rw [step_spec]
    rcases h with h | ⟨h, hmem⟩
    · left
      cases op <;> simp [h]
    · cases hmem with
      | head => exact .inl (if_pos h)
      | tail _ hmem =>
        have hmem : .addEmptySpecAction firstAction ∈ ops := hmem
        cases op <;> simp [h, hmem]

end ExceptState

/-! ### The handlers -/

section
variable {st : ExceptState} {fnStart fnEnd base : ℕ} {labelOffsets : ℕ → ℕ} {post : List UInt8}

/-- Where the type table ends. -/
def typeEnd (st : ExceptState) (fnStart fnEnd : ℕ) (labelOffsets : ℕ → ℕ) : ℕ :=
  (st.encodedHeader fnStart fnEnd labelOffsets).length +
    (st.encodedCallSites fnStart fnEnd labelOffsets).length +
    st.actionTable.length + st.encodedTypes.length

theorem length_encodedTypes (hne : st.actionTable ≠ []) :
    st.encodedTypes.length = 4 * (st.typeInfoTable.length + 1) := by
  rw [encodedTypes, if_neg hne, List.length_replicate]
  omega

/-- The specifications are behind the type table, whose last entry is that of the catch-all. -/
theorem drop_typeEnd (hne : st.actionTable ≠ []) :
    (st.exceptEncodeFunc fnStart fnEnd labelOffsets ++ post).drop
      (typeEnd st fnStart fnEnd labelOffsets) = st.specTable ++ post ∧
      (st.exceptEncodeFunc fnStart fnEnd labelOffsets ++ post).drop
        (typeEnd st fnStart fnEnd labelOffsets - 4) =
        [0, 0, 0, 0] ++ (st.specTable ++ post) := by
  have htypes : st.encodedTypes = List.replicate (4 * st.typeInfoTable.length) 0 ++ [0, 0, 0, 0] := by
    rw [encodedTypes, if_neg hne,
      show (st.typeInfoTable.length + 1) * 4 = 4 * st.typeInfoTable.length + 4 by ring,
      List.replicate_add]
    rfl
  have hparts : st.exceptEncodeFunc fnStart fnEnd labelOffsets ++ post =
      (st.encodedHeader fnStart fnEnd labelOffsets ++ st.encodedCallSites fnStart fnEnd labelOffsets ++
        st.actionTable ++
        List.replicate (4 * st.typeInfoTable.length) 0) ++ ([0, 0, 0, 0] ++ (st.specTable ++ post)) := by
    rw [exceptEncodeFunc_parts, htypes, if_neg hne]
    simp only [List.append_assoc]
  have hlen : typeEnd st fnStart fnEnd labelOffsets - 4 =
      (st.encodedHeader fnStart fnEnd labelOffsets ++ st.encodedCallSites fnStart fnEnd labelOffsets ++
        st.actionTable ++
        List.replicate (4 * st.typeInfoTable.length) 0).length := by
    rw [typeEnd, length_encodedTypes hne]
    simp only [List.length_append, List.length_replicate]
    omega
  have hcatch :
    (st.exceptEncodeFunc fnStart fnEnd labelOffsets ++ post).drop
    (typeEnd st fnStart fnEnd labelOffsets - 4) =
      [0, 0, 0, 0] ++ (st.specTable ++ post) := by
    rw [hlen, hparts, List.drop_left]
  refine ⟨?_, hcatch⟩
  have hadd : typeEnd st fnStart fnEnd labelOffsets = typeEnd st fnStart fnEnd labelOffsets - 4 + 4 := by
    rw [typeEnd, length_encodedTypes hne]
    omega
  rw [hadd, ← List.drop_drop, hcatch]
  rfl

/-- The relocations of types: their places count backwards from the end of the type table. -/
theorem exceptRelocs_eq (hne : st.actionTable ≠ []) : st.exceptRelocs fnStart fnEnd labelOffsets base =
    st.typeInfoTable.zipIdx.map fun x =>
      (x.1, base + (typeEnd st fnStart fnEnd labelOffsets - 4 * (x.2 + 2))) := by
  rw [exceptRelocs, if_neg hne]
  refine List.map_congr_left fun x hx => ?_
  have hlt := (List.mem_zipIdx' hx).1
  have htypes := length_encodedTypes hne
  simp only [typeEnd, Prod.mk.injEq, true_and]
  omega

theorem find_reloc (hne : st.actionTable ≠ []) {sym : ℕ} (h : sym ∈ st.typeInfoTable) :
    ((st.exceptRelocs fnStart fnEnd labelOffsets base).find? fun x =>
        x.2 = base + (typeEnd st fnStart fnEnd labelOffsets - 4 * (st.typeInfoTable.idxOf sym + 2))) =
      some (sym, base + (typeEnd st fnStart fnEnd labelOffsets - 4 * (st.typeInfoTable.idxOf sym + 2))) := by
  have hidx := List.idxOf_lt_length_of_mem h
  have htypes := length_encodedTypes hne
  rw [exceptRelocs_eq hne, List.find?_eq_some_iff_getElem]
  refine ⟨by simp, st.typeInfoTable.idxOf sym, by simpa using hidx, by simp, fun j hj => ?_⟩
  simp only [List.getElem_map, List.getElem_zipIdx, Bool.not_eq_true', decide_eq_false_iff_not, typeEnd]
  omega

/-- The entry of the catch-all is not relocated. -/
theorem find_no_reloc (hne : st.actionTable ≠ []) :
    ((st.exceptRelocs fnStart fnEnd labelOffsets base).find? fun x =>
        x.2 = base + (typeEnd st fnStart fnEnd labelOffsets - 4 * 1)) = none := by
  have htypes := length_encodedTypes hne
  rw [exceptRelocs_eq hne, List.find?_eq_none]
  intro x hx
  obtain ⟨y, hy, rfl⟩ := List.mem_map.mp hx
  have hlt := (List.mem_zipIdx' hy).1
  intro heq
  have heq := of_decide_eq_true heq
  simp only [typeEnd] at heq
  omega

/-- What the decoder needs to know of a clause is in the tables. -/
def Clause.Known (st : ExceptState) : Clause → Prop
  | .catch sym => sym ≠ 0 → sym ∈ st.typeInfoTable
  | .emptySpec => st.specTable = [0, 0, 0, 0]

/-- The filter of a clause means that clause. -/
theorem handlerOf_filter (hne : st.actionTable ≠ []) {c : Clause} (hc : c.Known st) :
    handlerOf (st.exceptRelocs fnStart fnEnd labelOffsets base)
      (st.exceptEncodeFunc fnStart fnEnd labelOffsets ++ post) base
      (typeEnd st fnStart fnEnd labelOffsets) (c.filter st.typeInfoTable) = some (.clause c) := by
  have hdrop := @drop_typeEnd st fnStart fnEnd labelOffsets post hne
  cases c with
  | «catch» sym =>
    rw [Clause.filter]
    split
    · rename_i h0
      rw [handlerOf, if_neg one_ne_zero, if_pos one_pos]
      show (match List.find?
        (fun x : ℕ × ℕ => x.2 = base + (typeEnd st fnStart fnEnd labelOffsets - 4 * 1)) _ with
        | some x => some (Handler.clause (Clause.catch x.1))
        | none => _) = _
      rw [find_no_reloc hne]
      simp only [Int.toNat_one, Nat.mul_one, hdrop.2, h0]
      rfl
    · rename_i h0
      have hfilter : ((st.typeInfoTable.idxOf sym : ℤ) + 2).toNat = st.typeInfoTable.idxOf sym + 2 := by omega
      rw [handlerOf, if_neg (by omega), if_pos (by omega), hfilter]
      simp only [find_reloc hne (hc h0)]
  | emptySpec =>
    have hspec : st.specTable = [0, 0, 0, 0] := hc
    rw [Clause.filter, handlerOf, if_neg (by decide), if_neg (by decide)]
    show (match readUleb ((st.exceptEncodeFunc fnStart fnEnd labelOffsets ++ post).drop
      (typeEnd st fnStart fnEnd labelOffsets)) with
        | some (0, _) => some (Handler.clause Clause.emptySpec)
        | _ => none) = _
    rw [hdrop.1, hspec]
    rfl

/-- A filter that means a clause is that of the clause. -/
theorem slebFits_of_handlerOf {relocs : List (ℕ × ℕ)} {lsda : List UInt8} {typeBase : ℕ}
    {types : List ℕ} {c : Clause}
    (h : handlerOf relocs lsda base typeBase (slebReadBack (c.filter types)) = some (.clause c)) :
      SlebFits (c.filter types) := by
  cases c with
  | emptySpec => exact slebFits_neg_one
  | «catch» sym =>
    by_contra hfits
    have hpos : 0 ≤ (Clause.catch sym).filter types := by
      rw [Clause.filter]
      split <;> omega
    have hneg := slebReadBack_neg hpos hfits
    rw [handlerOf, if_neg (by omega), if_neg (by omega)] at h
    split at h
    · cases h
    · cases h

/-- Only the filter zero means a cleanup. -/
theorem handlerOf_cleanup {relocs : List (ℕ × ℕ)} {lsda : List UInt8} {typeBase : ℕ} {filter : ℤ}
    (h : handlerOf relocs lsda base typeBase filter = some .cleanup) : filter = 0 := by
  rw [handlerOf] at h
  split at h
  · assumption
  · split at h
    · dsimp only at h
      split at h
      · cases h
      · split at h
        · cases h
        · cases h
    · split at h
      · cases h
      · cases h

end

/-! ### The round trip -/

section
variable {pads : List LandingPad} {ops : List ExceptOp} {fnStart fnEnd : ℕ} {labelOffsets : ℕ → ℕ}

/-- The call for a clause is among the calls. -/
theorem CallsFor.mem_op (h : CallsFor pads ops) {pad : LandingPad} (hpad : pad ∈ pads) {c : Clause}
    (hc : c ∈ pad.clauses) :
    ∃ firstAction, c.op firstAction ∈ ops := by
  obtain ⟨firstAction, hop⟩ : ∃ firstAction, c.op firstAction ∈ clauseOps pad.clauses := by
    cases hcs : pad.clauses with
    | nil => rw [hcs] at hc; cases hc
    | cons c' cs =>
      rw [hcs] at hc
      rcases List.mem_cons.mp hc with rfl | hc
      · exact ⟨true, List.mem_cons_self⟩
      · exact ⟨false, List.mem_cons_of_mem _ (List.mem_map_of_mem hc)⟩
  refine ⟨firstAction, @List.mem_of_mem_filter _ (fun op => !op.isQuery) _ _ ?_⟩
  rw [h.calls]
  refine List.mem_flatMap.mpr ⟨pad, hpad, ?_⟩
  exact List.mem_cons_of_mem _ (List.mem_append_left _ hop)

theorem CallsFor.known (h : CallsFor pads ops) {pad : LandingPad} (hpad : pad ∈ pads) {c : Clause}
    (hc : c ∈ pad.clauses) :
    c.Known (run exceptBeginFunc ops) := by
  obtain ⟨firstAction, hop⟩ := h.mem_op hpad hc
  cases c with
  | «catch» sym => exact fun h0 => run_mem_types h0 ops hop
  | emptySpec => exact run_spec ops (.inr ⟨rfl, hop⟩)

/-- The chain of a landing pad has the filters of its clauses. -/
theorem chain_of_fits {types : List ℕ} {acts : List UInt8} {pad : LandingPad} {n : ℕ}
    (hat : PadAt types acts pad n)
    (hsegs : ∃ t, acts = 0 :: 0 :: t ∧ Segments t) (hne : pad.clauses ≠ []) (hfits : PadFits types pad n) :
    Chain acts n (pad.clauses.map (Clause.filter types) ++ if pad.cleanup then [0] else []) := by
  obtain ⟨pre, post, rfl, hacts⟩ := hat
  obtain ⟨v, vs, hvs⟩ : ∃ v vs, pad.clauses.map (Clause.filter types) = v :: vs :=
    List.exists_cons_of_ne_nil fun h => hne (List.map_eq_nil_iff.mp h)
  simp only [padSeg, hvs] at hacts
  obtain ⟨t, ht, -⟩ := hsegs
  have hchain := chain_pad hacts ⟨t, ht⟩ fun hcleanup => hfits.2 v vs hvs hcleanup
  rw [← hvs, List.map_map] at hchain
  have hmap : pad.clauses.map (slebReadBack ∘ Clause.filter types) = pad.clauses.map (Clause.filter types) :=
    List.map_congr_left fun c hc => slebReadBack_eq_iff.mpr (hfits.1 c hc)
  rwa [hmap] at hchain

/-- **What is decoded** for a landing pad whose actions are behind `n` bytes. -/
theorem decoded_iff {st : ExceptState} {relocs : List (ℕ × ℕ)} {lsda : List UInt8} {base typeBase n : ℕ}
    {pad : LandingPad}
    (hknown : ∀ c ∈ pad.clauses, handlerOf relocs lsda base typeBase (c.filter st.typeInfoTable) =
      some (.clause c))
    (hsegs : ∃ t, st.actionTable = 0 :: 0 :: t ∧
      Segments t) (hat : PadAt st.typeInfoTable st.actionTable pad n)
    (hne : pad.clauses ≠ []) :
    (∃ fs, Chain st.actionTable n fs ∧ fs.map (handlerOf relocs lsda base typeBase) = pad.handlers.map some) ↔
      PadFits st.typeInfoTable pad n := by
  obtain ⟨pre, post, rfl, hacts⟩ := hat
  obtain ⟨v, vs, hvs⟩ : ∃ v vs, pad.clauses.map (Clause.filter st.typeInfoTable) = v :: vs :=
    List.exists_cons_of_ne_nil fun h => hne (List.map_eq_nil_iff.mp h)
  simp only [padSeg, hvs] at hacts
  have hhandlers : pad.handlers.map some = pad.clauses.map (fun c => some (.clause c)) ++
      (if pad.cleanup then [0] else []).map (handlerOf relocs lsda base typeBase) := by
    rw [LandingPad.handlers, List.map_append, List.map_map]
    cases pad.cleanup <;> rfl
  rw [hhandlers]
  constructor
  · rintro ⟨fs, hchain, hfs⟩
    obtain ⟨es, link, r', rfl, hread, hrest⟩ :=
      (chain_records (by rw [hacts, padBytes, List.append_assoc])).mp hchain
    rw [List.map_append, ← hvs, List.map_map, List.map_map] at hfs
    obtain ⟨hclauses, hes⟩ := List.append_inj hfs (by simp)
    refine ⟨fun c hc => slebFits_of_handlerOf (List.map_inj_left.mp hclauses c hc),
      fun v' vs' hvs' hcleanup => ?_⟩
    obtain ⟨rfl, rfl⟩ := List.cons.inj (hvs.symm.trans hvs')
    simp only [hcleanup, if_true] at hacts hes
    obtain ⟨e, rfl⟩ : ∃ e, es = [e] := by
      cases es with
      | nil => cases hes
      | cons e es =>
        obtain rfl : es = [] := List.map_eq_nil_iff.mp (List.cons.inj hes).2
        exact ⟨e, rfl⟩
    obtain rfl : e = 0 := handlerOf_cleanup (List.cons.inj hes).1
    exact fits_of_chain hacts hsegs hchain
  · intro hfits
    refine ⟨_, chain_of_fits ⟨pre, post, rfl, by rw [padSeg, hvs]; exact hacts⟩ hsegs hne hfits, ?_⟩
    rw [List.map_append, List.map_map]
    congr 1
    exact List.map_congr_left hknown

/-- **The actions are read back**, and the indices are those that are decoded, exactly if every signed number
that is written fits and every type has a clause before it is asked for. -/
theorem actions_roundTrip_iff (h : CallsFor pads ops)
    (hok : SitesOk fnEnd fnStart (run exceptBeginFunc ops).callSiteTable)
    (data post : List UInt8) :
    ActionsRoundTrip (run exceptBeginFunc ops) pads (answers exceptBeginFunc ops)
        ((run exceptBeginFunc ops).exceptRelocs fnStart fnEnd labelOffsets data.length)
        ((data ++ (run exceptBeginFunc ops).exceptEncodeFunc fnStart fnEnd labelOffsets ++ post).drop
          data.length)
        data.length fnStart ↔
      Along (OpFits pads) exceptBeginFunc ops := by
  have hrun : exceptBeginFunc.run (pads.flatMap LandingPad.ops) = run exceptBeginFunc ops := by
    rw [← h.calls, run_filter]
  obtain ⟨done, t, hdone, hacts, hsegs, hsites, hat, hfits⟩ :=
    @run_pads (run exceptBeginFunc ops).typeInfoTable pads pads
    exceptBeginFunc [] h.clauses rfl .nil (by rw [hrun])
  rw [hrun] at hacts hsites
  rw [along_filter, h.calls, hfits]
  rw [List.nil_append] at hacts hsegs hat
  set st := run exceptBeginFunc ops with hst
  have hsegs : ∃ t, st.actionTable = 0 :: 0 :: t ∧ Segments t := ⟨t, hacts, hsegs⟩
  have hne : st.actionTable ≠ [] := by rw [hacts]; exact List.cons_ne_nil _ _
  rw [← hacts] at hat
  -- what is found for a landing pad
  have hdone' : ∀ pad ∈ pads, ∃ n, (pad, n) ∈ done := by
    intro pad hpad
    obtain ⟨x, hx, rfl⟩ := List.mem_map.mp (hdone ▸ hpad)
    exact ⟨x.2, hx⟩
  have hmem : ∀ x ∈ done, x.1 ∈ pads := fun x hx => hdone ▸ List.mem_map_of_mem hx
  have hfind : ∀ x ∈ done,
    find (st.exceptEncodeFunc fnStart fnEnd labelOffsets ++ post) (x.1.textOff - fnStart) =
      some (siteEntry fnStart labelOffsets (padSite x.1 x.2)) := by
    intro x hx
    have hlen := h.len x.1 (hmem x hx)
    refine @find_site _ _ _ _ hok (padSite x.1 x.2) ?_ _ ⟨le_rfl, Nat.lt_add_of_pos_right hlen⟩ post
    rw [hsites]
    exact List.mem_append_right _ (List.mem_map_of_mem hx)
  have hheader : readHeader (st.exceptEncodeFunc fnStart fnEnd labelOffsets ++ post) =
      some ⟨some (typeEnd st fnStart fnEnd labelOffsets),
        (st.encodedHeader fnStart fnEnd labelOffsets).length,
        (st.encodedHeader fnStart fnEnd labelOffsets).length +
          (st.encodedCallSites fnStart fnEnd labelOffsets).length⟩ := by
    rw [exceptEncodeFunc_parts, readHeader_encodedHeader, if_neg hne]
    rfl
  have htable : ((st.exceptEncodeFunc fnStart fnEnd labelOffsets ++ post).drop
      ((st.encodedHeader fnStart fnEnd labelOffsets).length +
        (st.encodedCallSites fnStart fnEnd labelOffsets).length)).take st.actionTable.length =
          st.actionTable := by
    rw [exceptEncodeFunc_parts, ← List.append_assoc, ← List.length_append, List.drop_left, List.take_left]
  have hdecoded : ∀ x ∈ done, x.1.clauses ≠ [] → ((∃ fs, Chain st.actionTable x.2 fs ∧
      fs.map (handlerOf (st.exceptRelocs fnStart fnEnd labelOffsets data.length)
        (st.exceptEncodeFunc fnStart fnEnd labelOffsets ++ post) data.length
          (typeEnd st fnStart fnEnd labelOffsets)) =
          x.1.handlers.map some) ↔ PadFits st.typeInfoTable x.1 x.2) := fun x hx hcl =>
    decoded_iff (fun c hc => handlerOf_filter hne (h.known (hmem x hx) hc)) hsegs (hat x hx) hcl
  rw [List.append_assoc, List.drop_left]
  constructor
  · rintro ⟨hdec, hans⟩
    refine ⟨fun x hx => ?_, fun x hx h0 ⟨pad, hpad, hc⟩ => ?_⟩
    · by_cases hcl : x.1.clauses = []
      · exact ⟨by simp [hcl], by simp [hcl]⟩
      · obtain ⟨e, he, hdec⟩ := hdec x.1 (hmem x hx)
        obtain rfl := Option.some.inj ((hfind x hx).symm.trans he)
        rw [if_neg hcl] at hdec
        obtain ⟨-, hdr, typeBase, fs, hhdr, htypes, hchain, hfs⟩ := hdec
        obtain rfl := Option.some.inj (hheader.symm.trans hhdr)
        obtain rfl := Option.some.inj htypes
        refine (hdecoded x hx hcl).mp ⟨fs, ?_, hfs⟩
        simpa [htable, siteEntry, padSite, hcl] using hchain
    · obtain ⟨idx, hidx, -⟩ := hans x hx pad hpad h0 hc
      rw [hidx]
      exact Option.some_ne_none idx
  · rintro ⟨hpads, hans⟩
    refine ⟨fun pad hpad => ?_, fun x hx pad hpad h0 hc => ?_⟩
    · obtain ⟨n, hn⟩ := hdone' pad hpad
      refine ⟨_, hfind _ hn, ?_⟩
      split
      · rename_i hcl
        exact if_pos hcl
      · rename_i hcl
        obtain ⟨fs, hchain, hfs⟩ := (hdecoded _ hn hcl).mpr (hpads _ hn)
        refine ⟨by simp [siteEntry, padSite, hcl], _, _, fs, hheader, rfl, ?_, hfs⟩
        simpa [htable, siteEntry, padSite, hcl] using hchain
    · obtain ⟨sym, answer⟩ := x
      cases answer with
      | none => exact absurd rfl (hans _ hx h0 ⟨pad, hpad, hc⟩)
      | some idx =>
        refine ⟨idx, rfl, fun hdr e fs hhdr he hchain j hj => ?_⟩
        obtain rfl := Option.some.inj (hheader.symm.trans hhdr)
        obtain ⟨n, hn⟩ := hdone' pad hpad
        obtain rfl := Option.some.inj ((hfind _ hn).symm.trans he)
        have hcl : pad.clauses ≠ [] := List.ne_nil_of_mem hc
        have hchain' : Chain st.actionTable n fs := by
          simpa [htable, siteEntry, padSite, hcl] using hchain
        obtain rfl := hchain'.unique (chain_of_fits (hat _ hn) hsegs hcl (hpads _ hn))
        have hlt := (List.getElem?_eq_some_iff.mp hj).1
        rw [List.getElem?_append_left (by simpa using hlt), List.getElem?_map, hj, answers_some h0 ops hx]
        rfl

/-- Two landing pads: one with a type, a catch-all and a cleanup, and one that is only a cleanup. -/
theorem actions_roundTrip_two :
    ActionsRoundTrip
      (run exceptBeginFunc [.addCallSite 20 4 0 false, .addAction true 5, .typeIdxForSym 5,
        .addAction false 0,
        .addCleanupAction, .addCallSite 30 2 1 true])
      [⟨20, 4, 0, [Clause.catch 5, Clause.catch 0], true⟩, ⟨30, 2, 1, [], true⟩] [(5, some 2)]
      ((run exceptBeginFunc [.addCallSite 20 4 0 false, .addAction true 5, .typeIdxForSym 5,
        .addAction false 0,
        .addCleanupAction, .addCallSite 30 2 1 true]).exceptRelocs 16 80 (fun l => 60 + 10 * l) 3)
      (([1, 2, 3] ++ (run exceptBeginFunc [.addCallSite 20 4 0 false, .addAction true 5, .typeIdxForSym 5,
        .addAction false 0, .addCleanupAction, .addCallSite 30 2 1 true]).exceptEncodeFunc 16 80
          (fun l => 60 + 10 * l) ++
          [9]).drop 3) 3 16 := by
  refine (actions_roundTrip_iff ⟨by decide, by decide, by decide⟩ ?_ [1, 2, 3] [9]).mpr ?_
  · show SitesOk 80 16 [⟨20, 4, 0, 3⟩, ⟨30, 2, 1, 0⟩]
    simp [SitesOk]
  · exact ⟨trivial, show SlebFits 2 by decide, fun _ _ => List.mem_singleton.mpr rfl,
      show SlebFits 1 by decide,
      show SlebFits (-5) by decide, trivial, trivial⟩

/-- A landing pad that catches 63 types. -/
def manyTypes : LandingPad := ⟨0, 4, 0, (List.range 63).map fun k => Clause.catch (k + 1), false⟩

/-- The filter of the last type is 64, and it is read back as -64. -/
theorem actions_manyTypes :
    CallsFor [manyTypes] manyTypes.ops ∧ SitesOk 8 0 (run exceptBeginFunc manyTypes.ops).callSiteTable ∧
      ¬ ActionsRoundTrip (run exceptBeginFunc manyTypes.ops) [manyTypes]
        (answers exceptBeginFunc manyTypes.ops)
        ((run exceptBeginFunc manyTypes.ops).exceptRelocs 0 8 (fun _ => 6) 0)
        (([] ++ (run exceptBeginFunc manyTypes.ops).exceptEncodeFunc 0 8 (fun _ => 6) ++ []).drop 0) 0 0 := by
  refine ⟨⟨by decide +kernel, by decide +kernel, by decide +kernel⟩, ?_, fun h => ?_⟩
  · have hsites : (run exceptBeginFunc manyTypes.ops).callSiteTable = [⟨0, 4, 0, 3⟩] := by decide +kernel
    rw [hsites]
    exact ⟨le_rfl, show 4 ≤ 8 by decide⟩
  · obtain ⟨e, hfind, hdec⟩ := h.decoded manyTypes List.mem_cons_self
    have hfind' :
      find (([] ++ (run exceptBeginFunc manyTypes.ops).exceptEncodeFunc 0 8 (fun _ => 6) ++ []).drop 0)
        (manyTypes.textOff - 0) = some ⟨0, 4, 6, 3⟩ := by decide +kernel
    obtain rfl := Option.some.inj (hfind'.symm.trans hfind)
    rw [if_neg (by decide)] at hdec
    obtain ⟨-, hdr, typeBase, fs, hhdr, htypes, hchain, hfs⟩ := hdec
    have hhdr' :
      readHeader
      (([] ++ (run exceptBeginFunc manyTypes.ops).exceptEncodeFunc 0 8 (fun _ => 6) ++ []).drop 0) =
        some ⟨some 400, 6, 16⟩ := by decide +kernel
    obtain rfl := Option.some.inj (hhdr'.symm.trans hhdr)
    obtain rfl := Option.some.inj htypes
    have htable :
      ((([] ++ (run exceptBeginFunc manyTypes.ops).exceptEncodeFunc 0 8 (fun _ => 6) ++ []).drop 0).drop
      16).take
        (run exceptBeginFunc manyTypes.ops).actionTable.length =
          [0, 0] ++ (padBytes 2 2 ((List.range 62).map fun k => (k : ℤ) + 3) false ++ []) := by decide +kernel
    have hread := chain_pad htable ⟨_, htable⟩ nofun
    obtain rfl := hchain.unique hread
    have hlast := congrArg (fun l : List (Option Handler) => l[62]?) hfs
    simp only [List.getElem?_map] at hlast
    have hfilter :
      ((2 :: (List.range 62).map fun k => (k : ℤ) + 3).map slebReadBack ++ if false then [0] else [])[62]? =
        some (-64) := by decide +kernel
    rw [hfilter] at hlast
    revert hlast
    decide +kernel

end

end Tpde.Assembler
