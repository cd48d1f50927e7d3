import Tpde.Library.TypeLeaves
import Tpde.Llvm.PartIndex

/-!
# The parts of constants

`val_ref_constant` looks for the scalar that a part of a constant array or struct is. It does not look
at the type but counts indices along the parts, from the changes of the nesting depth, and follows them
into the constant. This finds the scalar of the leaf that the part belongs to unless a struct has a
member without parts in front of one with parts (`valRefConstant_iff`).
-/

namespace Tpde.ComplexTypes

open TypeLayout

/-! ### The model -/

/-- `UndefValue`, `PoisonValue`, and zeros: `ConstantAggregateZero`, and the zero of a scalar in it. -/
inductive Fill where
  | undef
  | poison
  | zero
  deriving DecidableEq, Repr

/-- Constants with scalars from `V`; vectors count as scalars. -/
inductive Const (V : Type) where
  | fill (f : Fill)
  | scalar (v : V)
  /-- `ConstantDataArray`. -/
  | dataArray (elements : List V)
  /-- `ConstantAggregate`, an array or a struct. -/
  | aggregate (operands : List (Const V))

/-- The constants of a type. -/
inductive HasType {V : Type} : LType Leaf → Const V → Prop
  | fill (t : LType Leaf) (f : Fill) : HasType t (.fill f)
  | scalar (s : Leaf) (v : V) : HasType (.leaf s) (.scalar v)
  | dataArray {n : ℕ} {s : Leaf} {elements : List V} (hlen : elements.length = n) :
    HasType (.array n (.leaf s)) (.dataArray elements)
  | aggregate {t : LType Leaf} {operands : List (Const V)} (ht : ∀ s,
    t ≠ .leaf s) (hlen : operands.length = t.members.length)
    (h : ∀ (k : ℕ) (e : LType Leaf) (c : Const V), t.members[k]? = some e → operands[k]? = some c →
      HasType e c) :
    HasType t (.aggregate operands)

namespace Const

variable {V : Type}

/-- The element that `extractvalue` gives. -/
def element : Const V → List ℕ → Option (Const V)
  | c, [] => some c
  | fill f, _ :: _ => some (fill f)
  | scalar _, _ :: _ => none
  | dataArray elements, k :: path =>
    match elements[k]? with
    | none => none
    | some v => element (scalar v) path
  | aggregate operands, k :: path =>
    match operands[k]? with
    | none => none
    | some c => element c path

/-- The loop of `val_ref_constant` over the indices. -/
def follow : Const V → List ℕ → Option (Const V)
  | c, [] => some c
  | dataArray elements, idx :: _ => elements[idx]?.map scalar
  | aggregate operands, idx :: indices =>
    match operands[idx]? with
    | none => none
    | some c => follow c indices
  | c, _ :: _ => some c

end Const

/-- `SmallVector::resize`. -/
def resize (l : List ℕ) (size : ℕ) : List ℕ := l.take size ++ List.replicate (size - l.length) 0

/-- A round of the loop over the parts in front: the indices, and `sub_part`. The new size is computed
in one step. -/
def skipPart (s : List ℕ × ℕ) (p : Part) : Option (List ℕ × ℕ) :=
  if s.1.length + p.nestInc < p.nestDec then none
  else
    let indices := resize s.1 (s.1.length + p.nestInc - p.nestDec)
    some (if p.endsValue then (bump indices, 0) else (indices, s.2 + 1))

/-- The indices of a part, its type, and which part of its scalar it is, if the loop begins with `s`. -/
def partIndices (parts : List Part) (s : List ℕ × ℕ) (part : ℕ) : Option (List ℕ × BasicTy × ℕ) := do
  let s ← (parts.take part).foldlM skipPart s
  let p ← parts[part]?
  some (resize s.1 (s.1.length + p.nestInc), p.ty, s.2)

/-- `val_ref_constant` for a type that is lowered to `parts`: the scalar, its type, and which part of it
is wanted. It fails where an index is not one of the parts or the operands. -/
def valRefConstant {V : Type} (parts : List Part) (constVal : Const V) (part : ℕ) :
    Option (Const V × BasicTy × ℕ) := do
  let (indices, ty, subPart) ← partIndices parts ([], 0) part
  let constVal ← constVal.follow indices
  some (constVal, ty, subPart)

/-- **The parts of a constant are the scalars of the leaves**, in their order: one after the other the
parts of what `extractvalue` gives for the indices of the leaf. -/
def Agrees (V : Type) (t : LType Leaf) (parts : List Part) : Prop :=
  ∀ constVal : Const V, HasType t constVal → (List.range parts.length).map (valRefConstant parts constVal) =
    (t.leafPieces partPieces).map fun x => (constVal.element x.1).map fun c => (c, x.2.1.ty, x.2.2)

/-! ### Constants -/

namespace Const

variable {V : Type}

/-- Followed to a leaf, the indices lead to its scalar. -/
theorem follow_eq_element {t : LType Leaf} {c : Const V} {path : List ℕ} {s : Leaf} (hc : HasType t c)
    (hpath : t.sub path = some (.leaf s)) :
    c.follow path = c.element path := by
  induction path generalizing t c with
  | nil => cases c <;> rfl
  | cons k path ih =>
    rw [LType.sub] at hpath
    cases hc with
    | fill => rfl
    | scalar s v => cases hpath
    | @dataArray n s' elements hlen =>
      cases hk : (LType.array n (.leaf s')).members[k]? with
      | none => simp [hk] at hpath
      | some e =>
        obtain rfl : e = .leaf s' := (List.mem_replicate.mp (List.mem_of_getElem? hk)).2
        simp only [hk] at hpath
        cases path with
        | nil => rw [follow, element]; cases elements[k]? <;> rfl
        | cons => cases hpath
    | @aggregate _ operands ht hlen h =>
      cases hk : t.members[k]? with
      | none => simp [hk] at hpath
      | some e =>
        simp only [hk] at hpath
        rw [follow, element]
        cases hc : operands[k]? with
        | none => rfl
        | some c => exact ih (h k e c hk hc) hpath

/-- Some constant has a scalar at a leaf that no other indices lead to. -/
theorem exists_follow (v : V) {t : LType Leaf} {path : List ℕ} {s : Leaf}
    (hpath : t.sub path = some (.leaf s)) :
    ∃ c : Const V, HasType t c ∧ c.element path = some (.scalar v) ∧ ∀ indices,
      c.follow indices = some (.scalar v) → path <+: indices := by
  induction path generalizing t with
  | nil =>
    obtain rfl := Option.some.inj hpath
    exact ⟨.scalar v, .scalar s v, rfl, fun _ _ => List.nil_prefix⟩
  | cons k path ih =>
    rw [LType.sub] at hpath
    cases hk : t.members[k]? with
    | none => simp [hk] at hpath
    | some e =>
      simp only [hk] at hpath
      obtain ⟨c, hc, helement, hfollow⟩ := ih hpath
      have hlt := (List.getElem?_eq_some_iff.mp hk).1
      refine ⟨.aggregate ((List.replicate t.members.length (.fill .undef)).set k c),
        .aggregate ?_ (by simp) fun k' e' c' hk' hc' => ?_, ?_,
        fun indices h => ?_⟩
      · rintro s rfl
        cases hlt
      · rw [List.getElem?_set] at hc'
        split at hc'
        · rename_i heq
          subst heq
          rw [if_pos (by simpa using hlt)] at hc'
          cases hk.symm.trans hk'
          cases hc'
          exact hc
        · obtain rfl := (List.mem_replicate.mp (List.mem_of_getElem? hc')).2
          exact .fill _ _
      · rw [element, List.getElem?_set_self (by simpa using hlt)]
        exact helement
      · cases indices with
        | nil => cases h
        | cons k' indices =>
          rw [follow, List.getElem?_set] at h
          by_cases heq : k = k'
          · subst heq
            rw [if_pos rfl, if_pos (by simpa using hlt)] at h
            exact (List.prefix_cons_inj k).mpr (hfollow indices h)
          · rw [if_neg heq] at h
            cases hget : (List.replicate t.members.length (fill .undef : Const V))[k']? with
            | none => simp [hget] at h
            | some c' =>
              obtain rfl := (List.mem_replicate.mp (List.mem_of_getElem? hget)).2
              simp only [hget] at h
              cases indices <;> cases h

end Const

/-! ### The indices of parts -/

theorem resize_add (l : List ℕ) (a : ℕ) : resize l (l.length + a) = l ++ List.replicate a 0 := by
  rw [resize, List.take_of_length_le (Nat.le_add_right ..), Nat.add_sub_cancel_left]

/-- Growing and shrinking at once is the same as one after the other. -/
theorem resize_eq (l : List ℕ) (a b : ℕ) : resize l (l.length + a - b) = (l ++ List.replicate a 0).take
    (l.length + a - b) := by
  rw [resize, List.take_append, List.take_replicate]
  congr 2
  omega

theorem partIndices_zero (p : Part) (ps : List Part) (s : List ℕ × ℕ) :
    partIndices (p :: ps) s 0 = some (s.1 ++ List.replicate p.nestInc 0, p.ty, s.2) := by
  rw [← resize_add]
  rfl

theorem partIndices_succ (p : Part) (ps : List Part) (s : List ℕ × ℕ) (i : ℕ) :
    partIndices (p :: ps) s (i + 1) = (skipPart s p).bind fun s' => partIndices ps s' i := by
  rw [partIndices, List.take_succ_cons, List.foldlM_cons]
  cases skipPart s p <;> rfl

section
variable {p : Part} {v : Visit} {st : List ℕ} {j : ℕ}

/-- What is skipped with a part whose counts have wrapped or not. -/
theorem skipPart_eq (hp : p.nesting = nesting v) (hpath : v.path = st ++ List.replicate (v.opens % 2 ^ 4) 0)
    (hcloses : v.closes ≤ v.path.length) : skipPart (st, j) p =
      some (if v.ends then (bump (v.path.take (v.path.length - v.closes % 2 ^ 4)), 0)
        else (v.path.take (v.path.length - v.closes % 2 ^ 4), j + 1)) := by
  obtain ⟨hinc, hrest⟩ := Prod.mk.inj hp
  obtain ⟨hdec, hends⟩ := Prod.mk.inj hrest
  have hlen : v.path.length = st.length + v.opens % 2 ^ 4 := by
    rw [hpath, List.length_append, List.length_replicate]
  have hmod : v.closes % 2 ^ 4 ≤ v.closes := Nat.mod_le ..
  rw [skipPart, hinc, hdec, hends, if_neg (by dsimp only; omega)]
  dsimp only
  rw [resize_eq, ← hpath, ← hlen]

/-- As long as no counts wrap the stack along the walk is kept. -/
theorem skipPart_after (hp : p.nesting = nesting v) (hpath : v.path = st ++ List.replicate v.opens 0)
    (hcloses : v.closes ≤ v.path.length)
    (hopens : v.opens < 16) (hsmall : v.closes < 16) :
      skipPart (st, j) p = some (v.after, if v.ends then 0 else j + 1) := by
  have hopens : v.opens % 2 ^ 4 = v.opens := Nat.mod_eq_of_lt hopens
  have hsmall : v.closes % 2 ^ 4 = v.closes := Nat.mod_eq_of_lt hsmall
  rw [skipPart_eq hp (by rw [hopens, hpath]) hcloses, hsmall, Visit.after]
  split <;> rfl

end

/-- **The indices of each part** are those of its leaf if the stack follows the walk, and no counts wrap
but those of what ends with the last part. -/
theorem partIndices_of_steps {l : List Visit} {ps : List Part} {st st' : List ℕ} {j : ℕ} (h : Steps st l st')
    (hps : ps.map Part.nesting = l.map nesting) (hopens : ∀ v ∈ l,
      v.opens < 16) (hcloses : ∀ v ∈ l.dropLast, v.closes < 16)
    {i : ℕ} {v : Visit} {p : Part} {k : ℕ} (hv : l[i]? = some v) (hp : ps[i]? = some p)
    (hk : (LType.numbers (l.map Visit.ends) j)[i]? = some k) :
      partIndices ps (st, j) i = some (v.path, p.ty, k) := by
  induction h generalizing ps i j with
  | nil => cases hv
  | @cons u l st st' hpath hle h ih =>
    obtain ⟨p₀, ps, rfl, hp₀, hps⟩ := List.map_eq_cons_iff.mp hps
    obtain ⟨hu, hopens⟩ := List.forall_mem_cons.mp hopens
    cases i with
    | zero =>
      obtain rfl := Option.some.inj hv
      obtain rfl := Option.some.inj hp
      obtain rfl := Option.some.inj hk
      have hinc : p₀.nestInc = u.opens := (congrArg Prod.fst hp₀).trans (Nat.mod_eq_of_lt hu)
      rw [partIndices_zero, hinc, ← hpath]
    | succ i =>
      obtain ⟨u', l, rfl⟩ := List.exists_cons_of_ne_nil (l := l) (by rintro rfl; cases hv)
      rw [List.dropLast_cons_cons] at hcloses
      obtain ⟨hsmall, hcloses⟩ := List.forall_mem_cons.mp hcloses
      rw [partIndices_succ, skipPart_after hp₀ hpath hle hu hsmall, Option.bind_some]
      exact ih hps hopens hcloses hv hp hk

/-- The stack is right if each part has indices that lead to its leaf. -/
theorem steps_of_partIndices {l : List Visit} {ps : List Part} {st : List ℕ} {j : ℕ}
    (hps : ps.map Part.nesting = l.map nesting)
    (hchain : l.IsChain Visit.Next) (hfirst : ∀ v, l.head? = some v → v.path.length = st.length + v.opens)
    (hlast : ∀ v, l.getLast? = some v → v.closes ≤ v.path.length)
    (h : ∀ (i : ℕ) (v : Visit), l[i]? = some v → ∃ r, partIndices ps (st, j) i = some r ∧ v.path <+: r.1) :
    (∃ st', Steps st l st') ∧ (∀ v ∈ l, v.opens < 16) ∧ ∀ v ∈ l.dropLast, v.closes < 16 := by
  induction l generalizing ps st j with
  | nil => exact ⟨⟨st, .nil st⟩, nofun, nofun⟩
  | cons v l ih =>
    obtain ⟨p, ps, rfl, hp, hps⟩ := List.map_eq_cons_iff.mp hps
    have hlen := hfirst v rfl
    obtain ⟨r, hr, hprefix⟩ := h 0 v rfl
    have hinc : p.nestInc = v.opens % 2 ^ 4 := congrArg Prod.fst hp
    rw [partIndices_zero, hinc] at hr
    obtain rfl := Option.some.inj hr
    have hprefix : v.path <+: st ++ List.replicate (v.opens % 2 ^ 4) 0 := hprefix
    have hopens : v.opens < 16 := by
      have hle := hprefix.length_le
      rw [List.length_append, List.length_replicate] at hle
      omega
    have hmod : v.opens % 2 ^ 4 = v.opens := Nat.mod_eq_of_lt hopens
    have hpath : v.path = st ++ List.replicate (v.opens % 2 ^ 4) 0 :=
      hprefix.eq_of_length (by rw [hlen, List.length_append, List.length_replicate, hmod])
    cases l with
    | nil =>
      refine ⟨⟨_, .cons (hmod ▸ hpath) (hlast v rfl) (.nil _)⟩, List.forall_mem_singleton.mpr hopens, nofun⟩
    | cons v' l =>
      obtain ⟨hnext, hchain⟩ := List.isChain_cons_cons.mp hchain
      have hle : v.closes ≤ v.path.length := by
        cases hnext with
        | same hends hcloses => omega
        | up hends hu hcloses =>
          rw [hu, List.length_append, List.length_cons]
          omega
      have hskip := skipPart_eq (j := j) hp hpath hle
      obtain ⟨r', hr', hprefix'⟩ := h 1 v' rfl
      rw [partIndices_succ, hskip, Option.bind_some] at hr'
      obtain ⟨p', ps', rfl, -, -⟩ := List.map_eq_cons_iff.mp hps
      rw [partIndices_zero] at hr'
      obtain rfl := Option.some.inj hr'
      have hsmall : v.closes < 16 := by
        by_contra hlarge
        rw [apply_ite Prod.fst] at hprefix'
        exact hnext.not_prefix (n := v.path.length - v.closes % 2 ^ 4) (by omega) (Nat.sub_le ..) hprefix'
      have hrest := fun i u hu => h (i + 1) u hu
      simp only [partIndices_succ, skipPart_after hp (hmod ▸ hpath) hle hopens hsmall,
        Option.bind_some] at hrest
      have hfirst' : ∀ u, (v' :: l).head? = some u → u.path.length = v.after.length + u.opens := by
        intro u hu
        obtain rfl := Option.some.inj hu
        rw [Visit.length_after]
        exact hnext.length_path
      obtain ⟨⟨st', hsteps⟩, hall, hcloses⟩ := ih hps hchain hfirst' hlast hrest
      exact ⟨⟨st', .cons (hmod ▸ hpath) hle hsteps⟩, List.forall_mem_cons.mpr ⟨hopens, hall⟩,
        List.forall_mem_cons.mpr ⟨hsmall, hcloses⟩⟩

/-! ### Types -/

section
variable {V : Type} {t : LType Leaf} {parts : List Part}

theorem valRefConstant_eq {c : Const V} {i : ℕ} {path : List ℕ} {ty : BasicTy} {j : ℕ}
    (h : partIndices parts ([], 0) i = some (path, ty, j)) :
      valRefConstant parts c i = (c.follow path).map fun c => (c, ty, j) := by
  rw [valRefConstant, h, Option.bind_eq_bind, Option.bind_some]
  cases hc : c.follow path <;> simp [hc]

theorem length_leafPieces (t : LType Leaf) : (t.leafPieces partPieces).length = t.numPieces partPieces := by
  rw [← List.length_map (·.1), LType.path_leafPieces, List.length_map, LType.length_walk]

/-- A piece of a leaf, with what the walk and the lowering say of it. -/
structure LeafPiece (t : LType Leaf) (parts : List Part) (i : ℕ) (x : List ℕ × PartKind × ℕ) : Prop where
  leaf : ∃ s, t.sub x.1 = some (.leaf s)
  visit : ∃ v, (t.walk partPieces)[i]? = some v ∧ v.path = x.1
  part : ∃ p, parts[i]? = some p ∧ p.ty = x.2.1.ty
  number : (LType.numbers ((t.walk partPieces).map Visit.ends) 0)[i]? = some x.2.2

theorem leafPiece (hview : parts.map Part.view = (t.pieces partPieces).map cut) {i : ℕ}
    {x : List ℕ × PartKind × ℕ}
    (hx : (t.leafPieces partPieces)[i]? = some x) : LeafPiece t parts i x := by
  have hget {α : Type} (f : List ℕ × PartKind × ℕ → α) :
    ((t.leafPieces partPieces).map f)[i]? = some (f x) := by
    rw [List.getElem?_map, hx, Option.map_some]
  refine ⟨?_, ?_, ?_, ?_⟩
  · obtain ⟨y, hy, hmem⟩ := List.mem_flatMap.mp (List.mem_of_getElem? hx)
    obtain ⟨j, hj, rfl⟩ := List.mem_mapIdx.mp hmem
    exact ⟨y.2, LType.sub_of_mem_leafPaths y hy⟩
  · have h := hget (·.1)
    rw [LType.path_leafPieces, List.getElem?_map] at h
    exact Option.map_eq_some_iff.mp h
  · have h := hget (·.2.1)
    have hkinds : parts.map Part.toPartKind = (t.pieces partPieces).map (·.1) := by
      have h := congrArg (List.map Prod.fst) hview
      rw [List.map_map, List.map_map] at h
      exact h
    rw [LType.kind_leafPieces, ← hkinds, List.getElem?_map] at h
    obtain ⟨p, hp, hkind⟩ := Option.map_eq_some_iff.mp h
    exact ⟨p, hp, congrArg PartKind.ty hkind⟩
  · have h := hget (·.2.2)
    rwa [LType.numbers_leafPieces] at h

/-- **The parts of all constants of a type are the scalars of its leaves exactly if** the type has the
parts of its leaves and no others, in each struct what has parts comes before what has none, and neither
16 arrays and structs begin with a part nor 16 end with a part that is not the last. -/
theorem valRefConstant_iff [Inhabited V] (t : LType Leaf) (hlower : lowerComplexType t = some parts) :
    Agrees V t parts ↔
    Fits t ∧ t.Leading partPieces ∧ (∀ v ∈ t.walk partPieces, v.opens < 16) ∧
      ∀ v ∈ (t.walk partPieces).dropLast, v.closes < 16 := by
  constructor
  · intro h
    have hlen := congrArg List.length (h (.fill .undef) (.fill t _))
    rw [List.length_map, List.length_range, List.length_map, length_leafPieces] at hlen
    have hfits := fits_of_length hlower hlen
    obtain ⟨parts', hlower', hview⟩ := lowerComplexType_fits hfits
    cases hlower.symm.trans hlower'
    have hparts := lowerComplexType_nesting hfits hlower
    obtain ⟨hchain, hfirst, hlast⟩ := LType.whole_walk partPieces t
    have hindices : ∀ (i : ℕ) (v : Visit), (t.walk partPieces)[i]? = some v →
        ∃ r, partIndices parts ([], 0) i = some r ∧ v.path <+: r.1 := by
      intro i v hv
      have hi : i < (t.leafPieces partPieces).length := by
        rw [length_leafPieces, ← LType.length_walk]
        exact (List.getElem?_eq_some_iff.mp hv).1
      have hpiece := leafPiece hview (List.getElem?_eq_getElem hi)
      set x := (t.leafPieces partPieces)[i] with hx
      obtain ⟨s, hs⟩ := hpiece.leaf
      obtain ⟨v', hv', hpath⟩ := hpiece.visit
      cases hv.symm.trans hv'
      obtain ⟨c, hc, helement, hfollow⟩ := Const.exists_follow (default : V) hs
      have hagree := congrArg (·[i]?) (h c hc)
      simp only [List.getElem?_map,
        List.getElem?_range (hlen ▸ length_leafPieces t ▸ hi : i < parts.length), List.getElem?_eq_getElem hi,
        Option.map_some, ← hx, helement, Option.some.injEq] at hagree
      obtain ⟨⟨indices, ty, j⟩, hr, hagree⟩ := Option.bind_eq_some_iff.mp hagree
      obtain ⟨c', hc', hagree⟩ := Option.bind_eq_some_iff.mp hagree
      obtain rfl := (Prod.mk.inj (Option.some.inj hagree)).1
      exact ⟨_, hr, hpath ▸ hfollow _ hc'⟩
    obtain ⟨⟨st, hsteps⟩, hopens, hcloses⟩ := steps_of_partIndices hparts hchain
      (fun v hv => (hfirst v hv).trans (Nat.zero_add _).symm) (fun v hv => (hlast v hv).2.ge) hindices
    refine ⟨hfits, LType.leading_of_steps partPieces t [] st ?_, hopens, hcloses⟩
    have hid : (t.walk partPieces).map (Visit.under []) = t.walk partPieces :=
      (List.map_congr_left fun v _ => rfl).trans (List.map_id _)
    rwa [hid]
  · rintro ⟨hfits, hleading, hopens, hcloses⟩ c hc
    obtain ⟨parts', hlower', hview⟩ := lowerComplexType_fits hfits
    cases hlower.symm.trans hlower'
    have hparts := lowerComplexType_nesting hfits hlower
    have hsteps := LType.steps_nil_walk partPieces hleading
    have hlen : parts.length = (t.leafPieces partPieces).length := by
      rw [length_leafPieces, ← LType.length_walk]
      simpa using congrArg List.length hparts
    refine List.ext_getElem (by rw [List.length_map, List.length_range, List.length_map, hlen])
      fun i hi hi' => ?_
    rw [List.length_map] at hi'
    have hpiece := leafPiece hview (List.getElem?_eq_getElem hi')
    rw [List.getElem_map, List.getElem_map, List.getElem_range]
    obtain ⟨s, hs⟩ := hpiece.leaf
    obtain ⟨v, hv, hpath⟩ := hpiece.visit
    obtain ⟨p, hp, hty⟩ := hpiece.part
    have hindices := partIndices_of_steps hsteps hparts hopens hcloses hv hp hpiece.number
    rw [hpath, hty] at hindices
    rw [valRefConstant_eq hindices, Const.follow_eq_element hc hs]

end

/-- The parts of constants of type `{ i8, [2 x { i32, i8 }], i128 }`. -/
theorem valRefConstant_nested : ∃ parts, lowerComplexType nested = some parts ∧ Agrees ℕ nested parts := by
  obtain ⟨parts, hlower⟩ : ∃ parts, lowerComplexType nested = some parts :=
    Option.isSome_iff_exists.mp (by decide +kernel)
  have hfull : nested.Full partPieces := by
    have hleaf (s : Leaf) (hs : 0 < (partPieces.kinds s).length) : (LType.leaf s).Full partPieces := hs
    exact ⟨by simp, hleaf _ (by decide),
      ⟨by decide, by simp, hleaf _ (by decide), hleaf _ (by decide), trivial⟩,
      hleaf _ (by decide), trivial⟩
  exact ⟨parts, hlower, (valRefConstant_iff nested hlower).mpr
    ⟨fits_of_full hfull (by decide +kernel), hfull.leading partPieces, by decide +kernel, by decide +kernel⟩⟩

/-- The indices of the first part of `{ {}, i32, i32 }` lead to the empty struct. -/
example : (lowerComplexType emptyFirst).bind (partIndices · ([], 0) 0) = some ([0], .i32, 0) := by
  decide +kernel

end Tpde.ComplexTypes
