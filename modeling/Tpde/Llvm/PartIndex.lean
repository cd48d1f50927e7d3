import Tpde.Library.TypeWalk
import Tpde.Llvm.ComplexTypes

/-!
# Parts of the elements of a value

`complex_part_for_index` finds the parts that `extractvalue` and `insertvalue` mean. It does
not look at the type but goes over the parts and keeps a stack of indices, from the changes of
the nesting depth that each part stores in 4 bits.

The parts of a type are the walk over it (`append_nesting`), and the stack holds the indices
of each part as long as no part begins or ends 16 arrays and structs at once. Members without parts do
not count, so all that follows them is taken for its neighbour (`complexPartForIndex_iff`).
-/

namespace Tpde.ComplexTypes

open TypeLayout

/-! ### The search -/

/-- The state of the search: the stack of indices, how far down the path they agree with it,
and the first part that is at its end. -/
structure Search where
  indices : List ℕ
  depth : ℕ
  firstPart : Option ℕ
  deriving DecidableEq, Repr

/-- Goes down the rest of the path as long as the indices agree with it, and says if all of it
did. It fails where an index is read that is not there. -/
def descend (indices : List ℕ) : List ℕ → ℕ → Option (ℕ × Bool)
  | [], _ => none
  | x :: rest, depth =>
    match indices[depth]? with
    | none => none
    | some k =>
      if k = x then if rest = [] then some (depth, true) else descend indices rest (depth + 1)
      else some (depth, false)

namespace Search

/-- What is done before a part: its arrays and structs begin, and the path is followed. -/
def enter (search : List ℕ) (i : ℕ) (p : Part) (s : Search) : Option Search :=
  let indices := s.indices ++ List.replicate p.nestInc 0
  match s.firstPart with
  | some first => some ⟨indices, s.depth, some first⟩
  | none =>
    (descend indices (search.drop s.depth) s.depth).map fun r => ⟨indices, r.1, if r.2 then some i else none⟩

/-- What is done after it: what ends there is left, and the index on top goes up. -/
def leave (p : Part) (s : Search) : Option Search :=
  if s.indices.length < p.nestDec then none
  else
    let indices := s.indices.take (s.indices.length - p.nestDec)
    some { s with indices := if p.endsValue then bump indices else indices }

/-- The first part, if the indices are past the path. -/
def found (search : List ℕ) (s : Search) : Option ℕ :=
  match s.firstPart, s.indices[s.depth]?, search[s.depth]? with
  | none, _, _ => none
  | some first, some k, some x => if x < k then some first else none
  | some first, _, _ => some first

end Search

/-- The loop over the parts, the first of which is the `i`-th. An assertion fails at its end. -/
def searchParts (search : List ℕ) : List Part → ℕ → Search → Option (ℕ × ℕ)
  | [], _, _ => some (0, 0)
  | p :: ps, i, s => do
    let s ← s.enter search i p
    let s ← s.leave p
    match s.found search with
    | some first => some (first, i)
    | none => searchParts search ps (i + 1) s

/-- `complex_part_for_index`. -/
def complexPartForIndex (parts : List Part) (search : List ℕ) : Option (ℕ × ℕ) :=
  searchParts search parts 0 ⟨[], 0, none⟩

/-! ### What it is to find -/

/-- A path that an instruction may have: 32-bit indices, at least one. -/
structure ValidPath (t : LType Leaf) (path : List ℕ) (e : LType Leaf) : Prop where
  ne_nil : path ≠ []
  bound : ∀ k ∈ path, k < 2 ^ 32
  sub_eq : t.sub path = some e

/-- The number of parts that the lowering makes of a type. -/
def numParts (t : LType Leaf) : ℕ := ((complexTypesAppend t ⟨[], false⟩).map fun r => r.1.parts.length).getD 0

/-- **Every path leads to the parts of its element**: as many as that has leaf parts, after those
of all that is before it. -/
def Selects (t : LType Leaf) (parts : List Part) : Prop :=
  ∀ path e, ValidPath t path e → ∃ first last, complexPartForIndex parts path = some (first, last) ∧
    first = t.countBefore numParts path ∧ last + 1 = first + e.numPieces partPieces

/-! ### The parts as a walk -/

/-- What a part says about the nesting. -/
def Part.nesting (p : Part) : ℕ × ℕ × Bool := (p.nestInc, p.nestDec, p.endsValue)

/-- What its bit fields hold of it. -/
def nesting (v : Visit) : ℕ × ℕ × Bool := (v.opens % 2 ^ 4, v.closes % 2 ^ 4, v.ends)

def incNesting (r : ℕ × ℕ × Bool) : ℕ × ℕ × Bool := ((r.1 + 1) % 2 ^ 4, r.2)

def decNesting (r : ℕ × ℕ × Bool) : ℕ × ℕ × Bool := (r.1, (r.2.1 + 1) % 2 ^ 4, r.2.2)

theorem nesting_incNest (l : List Part) (i : ℕ) :
    (l.modify i Part.incNest).map Part.nesting = (l.map Part.nesting).modify i incNesting :=
  map_modify (g := Part.nesting) Part.incNest (fun _ => rfl) l i

theorem nesting_decNest (l : List Part) (i : ℕ) :
    (l.modify i Part.decNest).map Part.nesting = (l.map Part.nesting).modify i decNesting :=
  map_modify (g := Part.nesting) Part.decNest (fun _ => rfl) l i

theorem nesting_addPad (l : List Part) (i d : ℕ) :
    (l.modify i (Part.addPad d)).map Part.nesting = l.map Part.nesting :=
  (map_modify (g := Part.nesting) (h := id) (Part.addPad d) (fun _ => rfl) l i).trans (List.modify_id ..)

/-- The walk over an array or struct, in bit fields. -/
theorem nesting_wrap (l : List Visit) :
    (wrap l).map nesting = ((l.map nesting).modify 0 incNesting).modify (l.length - 1) decNesting := by
  rw [wrap, map_modify (h := decNesting) Visit.addClose, map_modify (h := incNesting) Visit.addOpen]
  · intro v
    simp [nesting, incNesting, Visit.addOpen]
  · intro v
    simp [nesting, decNesting, Visit.addClose]

theorem nesting_walkAll (ws : List (List Visit)) (k : ℕ) :
    (walkAll ws k).map nesting = ws.flatten.map nesting := by
  induction ws generalizing k with
  | nil => rfl
  | cons w ws ih =>
    rw [walkAll, List.map_append, ih, List.flatten_cons, List.map_append, List.map_map]
    rfl

/-- Something full that has no more parts than a type may have is within the limits. -/
theorem fits_of_full {t : LType Leaf} (h : t.Full partPieces)
    (hnum : t.numPieces partPieces ≤ maxLength) : Fits t := by
  induction t using LType.induction_on (q := fun es => LType.FullMembers partPieces es →
      LType.numMemberPieces partPieces es ≤ maxLength → FitMembers es) with
  | leaf s =>
    cases hs : s.lower with
    | none => simp [LType.Full, partPieces, hs] at h
    | some r =>
      refine ⟨r.1, r.2, hs, ?_⟩
      simpa [LType.numPieces, partPieces, hs, leafKinds] using hnum
  | array n e ih =>
    refine ⟨ih h.2 (le_trans ?_ hnum), fun _ => ⟨h.1, hnum⟩⟩
    exact Nat.le_mul_of_pos_left _ h.1
  | struct packed es ih => exact ⟨ih h.2 hnum, hnum⟩
  | nil => trivial
  | cons e es ih ihs h hnum =>
    rw [LType.numMemberPieces] at hnum
    exact ⟨ih h.1 (by omega), ihs h.2 (by omega)⟩

theorem le_structEnd (packed : Bool) (es : List (LType Leaf)) (o : ℕ) :
    o ≤ LType.structEnd partLayout packed es o := by
  induction es generalizing o with
  | nil => exact le_rfl
  | cons e es ih =>
    have := Ranges.le_alignUp o (LType.memberAlign_pos (T := partLayout) packed e)
    exact le_trans (by omega) (ih _)

/-- What has pieces is not of size 0. -/
theorem allocSize_pos {t : LType Leaf} (h : 0 < t.numPieces partPieces) : 0 < t.allocSize partLayout := by
  induction t using LType.induction_on (q := fun es => 0 < LType.numMemberPieces partPieces es →
      ∀ packed o, 0 < LType.structEnd partLayout packed es o) with
  | leaf s =>
    cases hs : s.lower with
    | none => simp [LType.numPieces, partPieces, hs] at h
    | some r =>
      have : 0 < r.2 := Leaf.lower_pos hs
      simpa [LType.allocSize, partLayout, hs] using Nat.mul_pos this r.1.partSize_pos
  | array n e ih => exact Nat.mul_pos (Nat.pos_of_mul_pos_right h) (ih (Nat.pos_of_mul_pos_left h))
  | struct packed es ih =>
    exact lt_of_lt_of_le (ih h packed 0)
      (Ranges.le_alignUp _ ((LType.struct packed es).abiAlign_pos (T := partLayout)))
  | nil h => cases h
  | cons e es ih ihs h packed o =>
    rw [LType.numMemberPieces] at h
    rcases Nat.eq_zero_or_pos (e.numPieces partPieces) with hzero | hpos
    · exact ihs (by omega) packed _
    · have := ih hpos
      exact lt_of_lt_of_le (by omega) (le_structEnd packed es _)

/-- What has no pieces is of size 0. -/
theorem allocSize_eq_zero {t : LType Leaf} (hfits : Fits t) (h : t.numPieces partPieces = 0) :
    t.allocSize partLayout = 0 := by
  refine LType.allocSize_of_hasLeaf partPieces t ?_
  by_contra hleaf
  have := Fits.numPieces_pos t hfits (by simpa using hleaf)
  omega

/-- Something full has pieces. -/
theorem Full.numPieces_pos {t : LType Leaf} (h : t.Full partPieces) : 0 < t.numPieces partPieces := by
  rw [← LType.length_walk]
  exact List.length_pos_iff.mpr (LType.walk_ne_nil partPieces h)

/-- Arrays and structs begin and end with what was added last. -/
theorem wrap_append (l l' : List (ℕ × ℕ × Bool)) (h : 0 < l'.length) :
    ((l ++ l').modify l.length incNesting).modify (l.length + l'.length - 1) decNesting =
      l ++ (l'.modify 0 incNesting).modify (l'.length - 1) decNesting := by
  have hfirst := modify_append incNesting l l' 0
  rw [Nat.add_zero] at hfirst
  rw [hfirst, Nat.add_sub_assoc h, modify_append]

/-- The size that comes with the parts. -/
theorem append_size {t : LType Leaf} (h : Fits t) {st : State} {r : State × ℕ × ℕ}
    (hr : complexTypesAppend t st = some r) :
    r.2.1 = t.allocSize partLayout := by
  obtain ⟨ps, happend, -⟩ := append_pieces t h st
  rw [hr] at happend
  cases happend
  rfl

/-- **The parts of a type are its walk**, in bit fields. -/
theorem append_nesting {t : LType Leaf} (hfits : Fits t) {st : State} {r : State × ℕ × ℕ}
    (hr : complexTypesAppend t st = some r) :
    r.1.parts.map Part.nesting = st.parts.map Part.nesting ++ (t.walk partPieces).map nesting := by
  induction t using LType.induction_on (q := fun es => FitMembers es →
      ∀ packed st size align r, appendElems packed es st size align = some r →
        r.1.parts.map Part.nesting = st.parts.map Part.nesting ++
          (LType.walkEach partPieces es).flatten.map nesting)
      generalizing st r with
  | leaf s =>
    obtain ⟨ty, num, hs, -⟩ := hfits
    rw [complexTypesAppend, hs] at hr
    cases hr
    simp [LType.walk, partPieces, hs, leafKinds, Part.nesting, nesting, Function.comp_def]
  | array n e ih =>
    rw [complexTypesAppend] at hr
    obtain ⟨⟨st', sz, al⟩, he, hr⟩ := Option.bind_eq_some_iff.mp hr
    have hst' := ih hfits.1 he
    have hparts : st'.parts.length - st.parts.length = e.numPieces partPieces := by
      have := congrArg List.length hst'
      simp only [List.length_map, List.length_append, LType.length_walk] at this
      omega
    dsimp only at hr hst'
    rcases Nat.eq_zero_or_pos (e.numPieces partPieces) with hzero | hpos
    · rw [hparts, hzero, mul_zero, Nat.zero_mod, if_pos rfl] at hr
      cases hr
      have hnone : e.walk partPieces = [] :=
        List.eq_nil_of_length_eq_zero ((LType.length_walk partPieces e).trans hzero)
      have hnil : (LType.array n e).walk partPieces = [] := by
        refine List.eq_nil_of_length_eq_zero ?_
        rw [LType.length_walk, LType.numPieces, hzero, mul_zero]
      rw [hnil]
      rwa [hnone] at hst'
    have hleaf : e.hasLeaf = true := by
      by_contra hleaf
      have := LType.numPieces_of_hasLeaf partPieces e (by simpa using hleaf)
      omega
    obtain ⟨hn, hmax⟩ := hfits.2 hleaf
    unfold maxLength at hmax
    have hcount : 0 < n * e.numPieces partPieces := Nat.mul_pos hn hpos
    have hle : n ≤ n * e.numPieces partPieces := Nat.le_mul_of_pos_right n hpos
    have hmod : n % 2 ^ 32 = n := Nat.mod_eq_of_lt (by omega)
    have hcut : n * e.numPieces partPieces % 2 ^ 32 = n * e.numPieces partPieces :=
      Nat.mod_eq_of_lt (by omega)
    rw [hparts, hmod, hcut, if_neg hcount.ne', if_neg (lt_irrefl _)] at hr
    cases hr
    have htake : (st'.parts.take st.parts.length).map Part.nesting = st.parts.map Part.nesting := by
      rw [List.map_take, hst', List.take_left' (by simp)]
    have hdrop : (st'.parts.drop st.parts.length).map Part.nesting = (e.walk partPieces).map nesting := by
      rw [List.map_drop, hst', List.drop_left' (by simp)]
    dsimp only
    rw [nesting_decNest, nesting_incNest, List.map_append, htake, List.map_flatten, List.map_replicate, hdrop]
    rw [LType.walk, nesting_wrap, nesting_walkAll, List.map_flatten, List.map_replicate]
    have hlength : (List.replicate n ((e.walk partPieces).map nesting)).flatten.length =
      n * e.numPieces partPieces := by
      simp [LType.length_walk]
    have :=
      wrap_append (st.parts.map Part.nesting)
        (List.replicate n ((e.walk partPieces).map nesting)).flatten (by omega)
    rw [hlength, List.length_map] at this
    rw [this, LType.length_walkAll]
    simp [LType.length_walk]
  | struct packed es ih =>
    have hsize := append_size hfits hr
    have hlength : ((LType.walkEach partPieces es).flatten.map nesting).length =
      (LType.struct packed es).numPieces partPieces := by
      rw [← LType.length_walk, LType.walk, length_wrap, LType.length_walkAll, List.length_map,
        List.length_flatten]
    rw [complexTypesAppend] at hr
    obtain ⟨⟨st', size, align⟩, hes, hr⟩ := Option.bind_eq_some_iff.mp hr
    have hst' := ih hfits.1 packed st 0 1 _ hes
    dsimp only at hr hst'
    split_ifs at hr with hne
    · cases hr
      have hpieces : 0 < (LType.struct packed es).numPieces partPieces := by
        by_contra hzero
        have hnone := allocSize_eq_zero hfits (Nat.eq_zero_of_not_pos hzero)
        have hsize : Ranges.alignUp size align = (LType.struct packed es).allocSize partLayout := hsize
        omega
      have hlen := congrArg List.length hst'
      rw [List.length_append, hlength, List.length_map, List.length_map] at hlen
      dsimp only
      rw [nesting_addPad, nesting_decNest, nesting_incNest, hst', hlen]
      have :=
        wrap_append (st.parts.map Part.nesting)
          ((LType.walkEach partPieces es).flatten.map nesting) (by omega)
      rw [hlength, List.length_map] at this
      rw [this, LType.walk, nesting_wrap, nesting_walkAll, LType.length_walkAll, ← hlength,
        List.length_map, List.length_flatten]
    · cases hr
      have hzero : (LType.struct packed es).numPieces partPieces = 0 := by
        by_contra hpieces
        have hpos := allocSize_pos (Nat.pos_of_ne_zero hpieces)
        have hsize : Ranges.alignUp size align = (LType.struct packed es).allocSize partLayout := hsize
        omega
      have hnil : (LType.struct packed es).walk partPieces = [] :=
        List.eq_nil_of_length_eq_zero ((LType.length_walk partPieces _).trans hzero)
      rw [hnil]
      rwa [List.eq_nil_of_length_eq_zero (hlength.trans hzero)] at hst'
  | nil hfits packed st size align r hr =>
    cases hr
    simp [LType.walkEach]
  | cons e es ih ihs hfits packed st size align r hr =>
    rw [appendElems] at hr
    obtain ⟨⟨st', elSize, elAlign⟩, he, hr⟩ := Option.bind_eq_some_iff.mp hr
    have hst' := ih hfits.1 he
    dsimp only at hr hst'
    split at hr
    · cases hr
    have := ihs hfits.2 packed _ _ _ _ hr
    rw [this, LType.walkEach, List.flatten_cons, List.map_append, ← List.append_assoc, ← hst']
    congr 1
    rw [apply_ite State.parts, apply_ite (List.map Part.nesting), nesting_addPad, ite_self]

/-! ### The stack of indices -/

theorem descend_eq_false {search path : List ℕ} {d d' k x : ℕ} {r : List ℕ} (hd : d ≤ d')
    (hx : search[d']? = some x)
    (hpath : path = search.take d' ++ k :: r) (hk : k ≠ x) :
      descend path (search.drop d) d = some (d', false) := by
  have hlt := (List.getElem?_eq_some_iff.mp hx).1
  induction h : d' - d generalizing d with
  | zero =>
    obtain rfl : d = d' := by omega
    have htop : path[d]? = some k := by
      rw [hpath, List.getElem?_append_right (by simp)]
      simp [Nat.min_eq_left hlt.le]
    have hdrop := List.getElem_cons_drop hlt
    rw [(List.getElem?_eq_some_iff.mp hx).2] at hdrop
    rw [← hdrop, descend, htop]
    simp [hk]
  | succ n ih =>
    have hlt' : d < search.length := by omega
    have htop : path[d]? = some search[d] := by
      rw [hpath, List.getElem?_append_left (by simp; omega), List.getElem?_take_of_lt (by omega),
        List.getElem?_eq_getElem hlt']
    have hrest : search.drop (d + 1) ≠ [] := by
      rw [ne_eq, List.drop_eq_nil_iff]
      omega
    rw [← List.getElem_cons_drop hlt', descend, htop]
    simpa [hrest] using ih (by omega) (by omega)

theorem descend_eq_true {search path : List ℕ} {d : ℕ} (hd : d < search.length) (h : search <+: path) :
    descend path (search.drop d) d = some (search.length - 1, true) := by
  induction hn : search.length - d generalizing d with
  | zero => omega
  | succ n ih =>
    have htop : path[d]? = some search[d] := by
      obtain ⟨r, rfl⟩ := h
      rw [List.getElem?_append_left hd, List.getElem?_eq_getElem hd]
    rw [← List.getElem_cons_drop hd, descend, htop]
    by_cases hrest : search.drop (d + 1) = []
    · rw [List.drop_eq_nil_iff] at hrest
      simp [hrest]
      omega
    · rw [List.drop_eq_nil_iff, not_le] at hrest
      simpa [List.drop_eq_nil_iff, Nat.not_le.mpr hrest] using ih hrest (by omega)

/-- Beyond the stack nothing is read. -/
theorem descend_eq_none {search path : List ℕ} {d : ℕ} (hd : d < search.length) (h : path <+: search)
    (hlt : path.length < search.length) : descend path (search.drop d) d = none := by
  induction hn : search.length - d generalizing d with
  | zero => omega
  | succ n ih =>
    rw [← List.getElem_cons_drop hd, descend]
    by_cases hd' : d < path.length
    · have hrest : ¬ search.length ≤ d + 1 := by omega
      rw [List.getElem?_eq_getElem hd', List.IsPrefix.getElem h hd']
      simpa [List.drop_eq_nil_iff, hrest] using ih (by omega) (by omega)
    · rw [List.getElem?_eq_none (not_lt.mp hd')]

section
variable {search : List ℕ} {p : Part} {v : Visit} {i : ℕ} {s : Search}

/-- With few enough arrays and structs, the indices before a part are those that lead to it. -/
theorem enter_eq (hp : p.nesting = nesting v) (hpath : v.path = s.indices ++ List.replicate v.opens 0)
    (hopens : v.opens < 16) :
    s.enter search i p = match s.firstPart with
      | some first => some ⟨v.path, s.depth, some first⟩
      | none => (descend v.path (search.drop s.depth) s.depth).map fun r =>
        ⟨v.path, r.1, if r.2 then some i else none⟩ := by
  have hinc : p.nestInc = v.opens := (congrArg Prod.fst hp).trans (Nat.mod_eq_of_lt hopens)
  rw [Search.enter, hinc, ← hpath]

theorem leave_eq {d : ℕ} {f : Option ℕ} (hp : p.nesting = nesting v)
    (hcloses : v.closes ≤ v.path.length) (hlt : v.closes < 16) :
    Search.leave p ⟨v.path, d, f⟩ = some ⟨v.after, d, f⟩ := by
  have hdec : p.nestDec = v.closes := (congrArg (·.2.1) hp).trans (Nat.mod_eq_of_lt hlt)
  have hends : p.endsValue = v.ends := congrArg (·.2.2) hp
  rw [Search.leave, hdec, hends, if_neg (by simpa using hcloses)]
  rfl

end

/-- A piece that begins and ends few enough arrays and structs. -/
def Small (v : Visit) : Prop := v.opens < 16 ∧ v.closes < 16

instance (v : Visit) : Decidable (Small v) := inferInstanceAs (Decidable (_ ∧ _))

section
variable {search : List ℕ} {ps : List Part} {l : List Visit} {st st' : List ℕ}

/-- **The pieces before the element are passed over.** -/
theorem searchParts_before (rest : List Part) {d : ℕ} (hps : ps.map Part.nesting = l.map nesting)
    (hsteps : Steps st l st')
    (hbefore : Before search d l) (hsmall : ∀ v ∈ l, Small v) (hd : d < search.length) (i : ℕ) :
    ∃ d' < search.length, searchParts search (ps ++ rest) i ⟨st, d, none⟩ =
      searchParts search rest (i + l.length) ⟨st', d', none⟩ := by
  induction l generalizing ps st d i with
  | nil =>
    obtain rfl : ps = [] := by simpa using hps
    cases hsteps
    exact ⟨d, hd, rfl⟩
  | cons v l ih =>
    obtain ⟨p, ps, rfl⟩ : ∃ p ps', ps = p :: ps' := by
      cases ps with
      | nil => cases hps
      | cons p ps => exact ⟨p, ps, rfl⟩
    obtain ⟨hp, hps⟩ := List.cons.inj hps
    obtain ⟨hopens, hcloses⟩ := hsmall v List.mem_cons_self
    cases hsteps with
    | cons hpath hle hsteps =>
      cases hbefore with
      | @cons _ _ _ d₁ x k r hd₁ hx hkey hk hbefore =>
        have hlt := (List.getElem?_eq_some_iff.mp hx).1
        obtain ⟨d', hd', heq⟩ :=
          ih hps hsteps hbefore (fun u hu => hsmall u (List.mem_cons_of_mem _ hu)) hlt (i + 1)
        refine ⟨d', hd', ?_⟩
        rw [List.cons_append, searchParts, enter_eq hp hpath hopens]
        simp only [descend_eq_false hd₁ hx hkey hk, Option.map_some, Option.bind_eq_bind, Option.bind_some,
          leave_eq hp hle hcloses, Search.found]
        rw [if_neg Bool.false_ne_true, heq, List.length_cons, Nat.add_assoc, Nat.add_comm 1]

/-- Before a piece of the element its first part is known. -/
structure Ready (search : List ℕ) (i first : ℕ) (s : Search) : Prop where
  state : (s.firstPart = some first ∧ s.depth = search.length - 1) ∨
    (s.firstPart = none ∧ s.depth < search.length ∧ first = i)

theorem enter_ready {p : Part} {v : Visit} {i first : ℕ} {s : Search} (hs : Ready search i first s)
    (hp : p.nesting = nesting v)
    (hpath : v.path = s.indices ++ List.replicate v.opens 0) (hopens : v.opens < 16)
    (hpre : search <+: v.path) :
    s.enter search i p = some ⟨v.path, search.length - 1, some first⟩ := by
  rw [enter_eq hp hpath hopens]
  rcases hs.state with ⟨hfirst, hdepth⟩ | ⟨hfirst, hdepth, rfl⟩
  · rw [hfirst, hdepth]
  · rw [hfirst, descend_eq_true hdepth hpre]
    rfl

/-- The index of the path is still on the stack. -/
theorem getElem?_after {v : Visit} (hne : search ≠ []) (hpre : search <+: v.path)
    (hstays : v.Stays search.length) :
    v.after[search.length - 1]? = search[search.length - 1]? := by
  have hpos := List.length_pos_iff.mpr hne
  have hlast : v.path[search.length - 1]? = search[search.length - 1]? := by
    obtain ⟨r, hr⟩ := hpre
    rw [← hr, List.getElem?_append_left (by omega)]
  rw [Visit.after]
  rcases hstays with ⟨hends, hcloses⟩ | hcloses
  · rw [hends, hcloses, Nat.sub_zero, List.take_length]
    exact hlast
  · have htake :
      (v.path.take (v.path.length - v.closes))[search.length - 1]? = search[search.length - 1]? := by
      rw [List.getElem?_take_of_lt (by omega), hlast]
    split_ifs
    · rw [bump, List.getElem?_modify_ne _ _ (by simp; omega), htake]
    · exact htake

theorem found_stays {v : Visit} {first : ℕ} (hne : search ≠ []) (hpre : search <+: v.path)
    (hstays : v.Stays search.length) :
    Search.found search ⟨v.after, search.length - 1, some first⟩ = none := by
  have hpos := List.length_pos_iff.mpr hne
  have hget := List.getElem?_eq_getElem (show search.length - 1 < search.length by omega)
  rw [Search.found]
  simp [getElem?_after hne hpre hstays, hget]

theorem found_leaves {v : Visit} {first : ℕ} (hne : search ≠ []) (hpre : search <+: v.path)
    (hleaves : v.Leaves search.length) :
    Search.found search ⟨v.after, search.length - 1, some first⟩ = some first := by
  have hpos := List.length_pos_iff.mpr hne
  have hget := List.getElem?_eq_getElem (show search.length - 1 < search.length by omega)
  obtain ⟨hends, hcloses⟩ := hleaves
  have hlen : v.after.length = v.path.length - v.closes := by
    rw [Visit.after, hends]
    simp
  rw [Search.found]
  rcases Nat.lt_or_ge (v.path.length - v.closes) search.length with hlt | hge
  · simp [List.getElem?_eq_none (show v.after.length ≤ search.length - 1 by omega)]
  · -- only the index of the element itself goes up
    have htop : v.after[search.length - 1]? = some (search[search.length - 1] + 1) := by
      obtain ⟨r, hr⟩ := hpre
      have heq : v.path.length - v.closes = search.length := by omega
      rw [Visit.after, hends, if_pos rfl, bump, heq, ← hr, List.take_left, List.getElem?_modify_eq, hget]
      rfl
    simp [htop, hget]

/-- **The search goes on over all pieces of the element but the last.** -/
theorem searchParts_inside (rest : List Part) {i first : ℕ} {s : Search} (hne : search ≠ [])
    (hps : ps.map Part.nesting = l.map nesting)
    (hsteps : Steps s.indices l st') (hpre : ∀ u ∈ l, search <+: u.path) (hstays : ∀ u ∈ l,
      u.Stays search.length)
    (hsmall : ∀ u ∈ l, Small u) (hs : Ready search i first s) :
    ∃ s', s'.indices = st' ∧ Ready search (i + l.length) first s' ∧
      searchParts search (ps ++ rest) i s = searchParts search rest (i + l.length) s' := by
  induction l generalizing ps i s with
  | nil =>
    obtain rfl : ps = [] := by simpa using hps
    cases hsteps
    exact ⟨s, rfl, hs, rfl⟩
  | cons u l ih =>
    obtain ⟨p, ps, rfl⟩ : ∃ p ps', ps = p :: ps' := by
      cases ps with
      | nil => cases hps
      | cons p ps => exact ⟨p, ps, rfl⟩
    obtain ⟨hp, hps⟩ := List.cons.inj hps
    obtain ⟨hopens, hcloses⟩ := hsmall u List.mem_cons_self
    have hu := hpre u List.mem_cons_self
    cases hsteps with
    | cons hpath hle hsteps =>
      obtain ⟨s', hindices, hready, hnext⟩ :=
        ih (i := i + 1) (s := ⟨u.after, search.length - 1, some first⟩) hps hsteps
        (fun w hw => hpre w (List.mem_cons_of_mem _ hw)) (fun w hw => hstays w (List.mem_cons_of_mem _ hw))
        (fun w hw => hsmall w (List.mem_cons_of_mem _ hw)) ⟨.inl ⟨rfl, rfl⟩⟩
      have hlen : i + 1 + l.length = i + (u :: l).length := by
        rw [List.length_cons]
        omega
      rw [hlen] at hready hnext
      refine ⟨s', hindices, hready, ?_⟩
      rw [List.cons_append, searchParts, enter_ready hs hp hpath hopens hu]
      simp only [Option.bind_eq_bind, Option.bind_some, leave_eq hp hle hcloses,
        found_stays hne hu (hstays u List.mem_cons_self), hnext]

/-- **The last piece of the element ends the search.** -/
theorem searchParts_last (rest : List Part) {p : Part} {v : Visit} {i first : ℕ} {s : Search}
    (hne : search ≠ []) (hp : p.nesting = nesting v)
    (hsteps : Steps s.indices [v] st') (hpre : search <+: v.path) (hleaves : v.Leaves search.length)
    (hsmall : Small v)
    (hs : Ready search i first s) : searchParts search (p :: rest) i s = some (first, i) := by
  cases hsteps with
  | cons hpath hle _ =>
    rw [searchParts, enter_ready hs hp hpath hsmall.1 hpre]
    simp only [Option.bind_eq_bind, Option.bind_some, leave_eq hp hle hsmall.2, found_leaves hne hpre hleaves]

end

theorem leave_firstPart {p : Part} {s s' : Search} (h : s.leave p = some s') :
    s'.firstPart = s.firstPart := by
  rw [Search.leave] at h
  split at h
  · cases h
  · rw [← Option.some.inj h]

theorem found_firstPart {search : List ℕ} {s : Search} {first : ℕ} (h : s.found search = some first) :
    s.firstPart = some first := by
  rw [Search.found] at h
  split at h
  · cases h
  · split_ifs at h
    rwa [← h]
  · rwa [← h]

/-- What is found lies between where the search begins and the end, unless all parts were passed. -/
theorem searchParts_bound {search : List ℕ} {ps : List Part} {i : ℕ} {s : Search}
    (hs : ∀ f, s.firstPart = some f → f ≤ i)
    {first last : ℕ} (h : searchParts search ps i s = some (first, last)) :
    (first = 0 ∧ last = 0) ∨ (i ≤ last ∧ last < i + ps.length ∧ first ≤ last) := by
  induction ps generalizing i s with
  | nil =>
    cases h
    exact .inl ⟨rfl, rfl⟩
  | cons p ps ih =>
    rw [searchParts] at h
    obtain ⟨s₁, h₁, h⟩ := Option.bind_eq_some_iff.mp h
    obtain ⟨s₂, h₂, h⟩ := Option.bind_eq_some_iff.mp h
    have hs₁ : ∀ f, s₁.firstPart = some f → f ≤ i := by
      intro f hf
      rw [Search.enter] at h₁
      cases hfirst : s.firstPart with
      | some f' =>
        rw [hfirst] at h₁
        cases h₁
        exact hs f (hfirst.trans hf)
      | none =>
        rw [hfirst] at h₁
        obtain ⟨r, -, rfl⟩ := Option.map_eq_some_iff.mp h₁
        by_cases hr : r.2 = true
        · have hf : some i = some f := by simpa [hr] using hf
          exact (Option.some.inj hf).ge
        · simp [hr] at hf
    have hs₂ := leave_firstPart h₂
    rw [List.length_cons]
    cases hfound : s₂.found search with
    | none =>
      rw [hfound] at h
      have := ih (i := i + 1) (fun f hf => (hs₁ f (hs₂ ▸ hf)).trans (Nat.le_succ i)) h
      omega
    | some f =>
      rw [hfound] at h
      cases h
      have := hs₁ first (hs₂ ▸ found_firstPart hfound)
      omega

theorem complexPartForIndex_bound {parts : List Part} {path : List ℕ} {first last : ℕ}
    (h : complexPartForIndex parts path = some (first, last)) : first ≤ last ∧
      (last = 0 ∨ last < parts.length) := by
  have := searchParts_bound (s := ⟨[], 0, none⟩) (fun f hf => nomatch hf) h
  omega

/-! ### Types that are searched right -/

/-- The parts of a full type around a piece. -/
theorem parts_split {t : LType Leaf} {parts : List Part} (ht : t.Full partPieces)
    (hparts : parts.map Part.nesting = (t.walk partPieces).map nesting) {l r : List Visit} {v : Visit}
    (hwalk : t.walk partPieces = l ++ v :: r) :
    ∃ ps p rest st, parts = ps ++ p :: rest ∧ ps.map Part.nesting = l.map nesting ∧
      p.nesting = nesting v ∧ Steps [] l st ∧
      v.path = st ++ List.replicate v.opens 0 ∧ v.closes ≤ v.path.length := by
  have hsteps := LType.steps_nil_walk partPieces (ht.leading partPieces)
  rw [hwalk] at hsteps
  obtain ⟨st, hsteps, hrest⟩ := hsteps.append_inv
  rw [hwalk, List.map_append, List.map_cons] at hparts
  obtain ⟨ps, qs, rfl, hps, hqs⟩ := List.map_eq_append_iff.mp hparts
  obtain ⟨p, rest, rfl, hp, -⟩ := List.map_eq_cons_iff.mp hqs
  cases hrest with
  | cons hpath hle _ => exact ⟨ps, p, rest, st, rfl, hps, hp, hsteps, hpath, hle⟩

section
variable {t e : LType Leaf} {parts : List Part} {path : List ℕ}

/-- **With pieces that begin and end few enough arrays and structs, every path leads to its
parts.** -/
theorem complexPartForIndex_eq (ht : t.Full partPieces)
    (hparts : parts.map Part.nesting = (t.walk partPieces).map nesting)
    (hsmall : ∀ v ∈ t.walk partPieces, Small v) (hne : path ≠ []) (he : t.sub path = some e) :
    ∃ first last, complexPartForIndex parts path = some (first, last) ∧
      first = t.countBefore (LType.numPieces partPieces) path ∧
        last + 1 = first + e.numPieces partPieces := by
  obtain ⟨B, I, v, A, hwalk, hB, hI, hbefore, htarget⟩ := LType.walk_split partPieces path ht he
  rw [← List.append_assoc] at hwalk
  obtain ⟨ps, p, rest, st, rfl, hps, hp, hsteps, hpath, hle⟩ := parts_split ht hparts hwalk
  rw [List.map_append] at hps
  obtain ⟨ps, ps', rfl, hps, hps'⟩ := List.map_eq_append_iff.mp hps
  obtain ⟨st₁, hsteps, hsteps'⟩ := hsteps.append_inv
  rw [hwalk] at hsmall
  obtain ⟨d, hd, hpassed⟩ :=
    searchParts_before (ps' ++ p :: rest) hps hsteps hbefore (fun v hv => hsmall v (by simp [hv]))
    (List.length_pos_iff.mpr hne) 0
  have hready₀ : Ready path (0 + B.length) B.length ⟨st₁, d, none⟩ := ⟨.inr ⟨rfl, hd, (Nat.zero_add _).symm⟩⟩
  obtain ⟨s, hs, hready, hinside⟩ := searchParts_inside (p :: rest) hne hps' hsteps'
    (fun u hu => htarget.isPrefix u (List.mem_append_left _ hu)) htarget.stays
      (fun v hv => hsmall v (by simp [hv])) hready₀
  have hstep : Steps s.indices [v] v.after := .cons (hs ▸ hpath) hle (.nil _)
  have hlast :=
    searchParts_last rest hne hp hstep (htarget.isPrefix v (by simp)) htarget.leaves
      (hsmall v (by simp)) hready
  refine ⟨B.length, 0 + B.length + I.length, ?_, hB, by omega⟩
  rw [complexPartForIndex, List.append_assoc, hpassed, hinside, hlast]

/-! ### Types that are not -/

/-- At the first piece that begins too many arrays and structs, its path is followed beyond the stack. -/
theorem complexPartForIndex_opens (ht : t.Full partPieces)
    (hparts : parts.map Part.nesting = (t.walk partPieces).map nesting)
    {l r : List Visit} {v : Visit} (hwalk : t.walk partPieces = l ++ v :: r) (hl : ∀ u ∈ l,
      Small u) (hopens : 16 ≤ v.opens) :
    complexPartForIndex parts v.path = none := by
  have hget : (t.walk partPieces)[l.length]? = some v := by simp [hwalk]
  obtain ⟨e, he, hle, hlt⟩ := LType.sub_of_walk partPieces hget (j := v.path.length) le_rfl
  rw [List.take_length] at he hle hlt
  obtain ⟨B, I, v', A, hwalk', hB, hI, hbefore, htarget⟩ := LType.walk_split partPieces v.path ht he
  obtain ⟨ps, p, rest, st, rfl, hps, hp, hsteps, hpath, -⟩ := parts_split ht hparts hwalk
  -- the piece is the first at the end of its path
  have hlen : B.length = l.length := by
    by_contra hne
    obtain ⟨n, hn⟩ : ∃ n, l.length = n + 1 := ⟨l.length - 1, by omega⟩
    have hu : (t.walk partPieces)[n]? = some I[n - B.length] := by
      rw [hwalk', List.getElem?_append_right (by omega), List.getElem?_append_left (by omega)]
      exact List.getElem?_eq_getElem _
    have hmem : I[n - B.length] ∈ I := List.getElem_mem _
    have hnext :=
      congrArg List.length
        ((LType.steps_nil_walk partPieces (ht.leading partPieces)).path_succ hu (hn ▸ hget))
    have hpre := (htarget.isPrefix _ (List.mem_append_left _ hmem)).length_le
    rw [List.length_append, List.length_replicate, Visit.length_after] at hnext
    rcases htarget.stays _ hmem with ⟨-, hcloses⟩ | hcloses <;> omega
  obtain ⟨rfl, -⟩ := List.append_inj (hwalk.symm.trans hwalk') hlen.symm
  have hpos : 0 < v.path.length := by
    rw [hpath, List.length_append, List.length_replicate]
    omega
  obtain ⟨d, hd, hpassed⟩ := searchParts_before (p :: rest) hps hsteps hbefore hl hpos 0
  have hinc : p.nestInc = v.opens % 2 ^ 4 := congrArg Prod.fst hp
  have hmod : v.opens % 2 ^ 4 < v.opens := lt_of_lt_of_le (Nat.mod_lt _ (by decide)) hopens
  have hnone : descend (st ++ List.replicate (v.opens % 2 ^ 4) 0) (v.path.drop d) d = none := by
    refine descend_eq_none hd ?_ ?_
    · rw [hpath, List.prefix_append_right_inj]
      refine ⟨List.replicate (v.opens - v.opens % 2 ^ 4) 0, ?_⟩
      rw [List.replicate_append_replicate]
      congr 1
      omega
    · rw [hpath]
      simpa using hmod
  rw [complexPartForIndex, hpassed, searchParts, Search.enter, hinc]
  simp only [hnone, Option.map_none, Option.bind_eq_bind, Option.bind_none]

/-- At the first piece that ends too many arrays and structs, some of what ends there is not left. -/
theorem complexPartForIndex_closes (ht : t.Full partPieces)
    (hparts : parts.map Part.nesting = (t.walk partPieces).map nesting)
    {l r : List Visit} {v : Visit} (hwalk : t.walk partPieces = l ++ v :: r) (hl : ∀ u ∈ l,
      Small u) (hopens : v.opens < 16)
    (hcloses : 16 ≤ v.closes) {n : ℕ} (hn : n = max 1 (v.path.length - v.closes))
    (he : t.sub (v.path.take n) = some e)
    {first last : ℕ} (h : complexPartForIndex parts (v.path.take n) = some (first, last)) :
    last + 1 ≠ t.countBefore (LType.numPieces partPieces) (v.path.take n) + e.numPieces partPieces := by
  have hget : (t.walk partPieces)[l.length]? = some v := by simp [hwalk]
  obtain ⟨ps, p, rest, st, rfl, hps, hp, hsteps, hpath, hclosed⟩ := parts_split ht hparts hwalk
  have hlen : (v.path.take n).length = n := by
    rw [List.length_take]
    omega
  have hne : v.path.take n ≠ [] := List.length_pos_iff.mp (by omega)
  obtain ⟨e', he', hle, hlt⟩ := LType.sub_of_walk partPieces hget (j := n) (by omega)
  obtain rfl := Option.some.inj (he.symm.trans he')
  obtain ⟨B, I, v', A, hwalk', hB, hI, hbefore, htarget⟩ := LType.walk_split partPieces _ ht he
  -- the piece is the last of the element, which it ends
  have hlast : l.length = (B ++ I).length := by
    rw [List.length_append]
    by_contra hne
    have hmem : v ∈ I := by
      rw [hwalk', List.getElem?_append_right (by omega), List.getElem?_append_left (by omega)] at hget
      exact List.mem_of_getElem? hget
    rcases htarget.stays v hmem with ⟨-, hzero⟩ | hstays <;> omega
  rw [← List.append_assoc] at hwalk'
  obtain ⟨rfl, htail⟩ := List.append_inj (hwalk.symm.trans hwalk') hlast
  obtain ⟨rfl, -⟩ := List.cons.inj htail
  intro hright
  rw [List.map_append] at hps
  obtain ⟨ps, ps', rfl, hps, hps'⟩ := List.map_eq_append_iff.mp hps
  obtain ⟨st₁, hsteps, hsteps'⟩ := hsteps.append_inv
  obtain ⟨d, hd, hpassed⟩ :=
    searchParts_before (ps' ++ p :: rest) hps hsteps hbefore (fun v hv => hl v (by simp [hv]))
    (List.length_pos_iff.mpr hne) 0
  -- in its bit field it is a piece that does not leave the path
  let w : Visit := { v with closes := v.closes % 2 ^ 4 }
  have hmod : v.closes % 2 ^ 4 < 16 := Nat.mod_lt _ (by decide)
  have hpw : p.nesting = nesting w := by
    rw [hp]
    simp [nesting, w]
  have hpre : v.path.take n <+: w.path := List.take_prefix n v.path
  have hstays : w.Stays (v.path.take n).length := by
    refine .inr ?_
    change v.closes % 2 ^ 4 + _ < v.path.length
    omega
  have hstep : Steps st₁ (I ++ [w]) w.after :=
    hsteps'.append (.cons hpath (Nat.le_trans (Nat.mod_le ..) hclosed) (.nil _))
  have hready₀ : Ready (v.path.take n) (0 + B.length) B.length ⟨st₁, d, none⟩ :=
    ⟨.inr ⟨rfl, hd, (Nat.zero_add _).symm⟩⟩
  have hpsw : (ps' ++ [p]).map Part.nesting = (I ++ [w]).map nesting := by
    rw [List.map_append, List.map_append, hps', List.map_singleton, hpw]
    rfl
  obtain ⟨s, -, hready, hinside⟩ := searchParts_inside rest hne hpsw hstep (fun u hu => by
      rcases List.mem_append.mp hu with hu | hu
      · exact htarget.isPrefix u (List.mem_append_left _ hu)
      · rwa [List.mem_singleton.mp hu])
    (fun u hu => by
      rcases List.mem_append.mp hu with hu | hu
      · exact htarget.stays u hu
      · rwa [List.mem_singleton.mp hu])
    (fun u hu => by
      rcases List.mem_append.mp hu with hu | hu
      · exact hl u (by simp [hu])
      · rw [List.mem_singleton.mp hu]
        exact ⟨hopens, hmod⟩)
    hready₀
  rw [List.append_assoc, List.singleton_append] at hinside
  rw [complexPartForIndex, List.append_assoc, hpassed, hinside] at h
  have hbound := searchParts_bound (i := 0 + B.length + (I ++ [w]).length) (fun f hf => by
    rcases hready.state with ⟨hfirst, -⟩ | ⟨hfirst, -⟩
    · obtain rfl := Option.some.inj (hfirst.symm.trans hf)
      omega
    · rw [hfirst] at hf
      cases hf) h
  rw [List.length_append, List.length_singleton] at hbound
  have hzero : B.length = 0 ∧ I.length = 0 := by omega
  obtain rfl := List.length_eq_zero_iff.mp hzero.1
  obtain rfl := List.length_eq_zero_iff.mp hzero.2
  cases hsteps
  cases hsteps'
  have := congrArg List.length hpath
  rw [List.nil_append, List.length_replicate] at this
  omega

end

section
variable {t : LType Leaf}

/-- Members that have something of what is counted. -/
theorem le_sum_take (n : ℕ) {l : List (LType Leaf)} (count : LType Leaf → ℕ) (hn : n ≤ l.length)
    (h : ∀ i < n, ∀ e, l[i]? = some e → 0 < count e) : n ≤ ((l.take n).map count).sum := by
  have hone := List.length_le_sum_of_one_le ((l.take n).map count) (fun m hm => by
    obtain ⟨e, he, rfl⟩ := List.mem_map.mp hm
    obtain ⟨i, hi, hget⟩ := List.mem_take_iff_getElem.mp he
    exact h i (by omega) e (List.getElem?_eq_some_iff.mpr ⟨by omega, hget⟩))
  rw [List.length_map, List.length_take] at hone
  omega

theorem sum_take_le (n : ℕ) (l : List (LType Leaf)) (count : LType Leaf → ℕ) :
    ((l.take n).map count).sum ≤ (l.map count).sum := by
  conv_rhs => rw [← List.take_append_drop n l, List.map_append, List.sum_append]
  exact Nat.le_add_right ..

/-- A type is full if every path leads to something with pieces. Paths have 32-bit indices, but with
more members there are too many pieces. -/
theorem full_of_paths (hnum : t.numPieces partPieces ≤ maxLength)
    (h : ∀ path e, (∀ k ∈ path, k < 2 ^ 32) → t.sub path = some e → 0 < e.numPieces partPieces) :
      t.Full partPieces := by
  induction t using LType.members_induction with
  | leaf s => simpa [LType.Full, LType.numPieces] using h [] _ (by simp) rfl
  | node t ht ih =>
    have hcons : ∀ k < 2 ^ 32, ∀ m, t.members[k]? = some m → ∀ path e, (∀ j ∈ path, j < 2 ^ 32) →
      m.sub path = some e →
        0 < e.numPieces partPieces := by
      intro k hk m hm path e hpath he
      exact h (k :: path) e (List.forall_mem_cons.mpr ⟨hk, hpath⟩) (by rw [LType.sub, hm]; exact he)
    have hlen : t.members.length ≤ 2 ^ 32 := by
      by_contra hlen
      have hsum := le_sum_take (2 ^ 32) (l := t.members) (LType.numPieces partPieces) (by omega)
        (fun i hi e he => hcons i hi e he [] e (by simp) rfl)
      have hle := sum_take_le (2 ^ 32) t.members (LType.numPieces partPieces)
      rw [LType.numPieces_eq partPieces ht] at hnum
      unfold maxLength at hnum
      omega
    refine (LType.full_iff partPieces ht).mpr ⟨?_, fun m hm => ?_⟩
    · intro hnil
      have := h [] t (by simp) rfl
      rw [LType.numPieces_eq partPieces ht, hnil] at this
      cases this
    · obtain ⟨k, hk, rfl⟩ := List.mem_iff_getElem.mp hm
      exact ih _ hm ((LType.numPieces_le_of_mem partPieces ht hm).trans hnum)
        (hcons k (by omega) _ (List.getElem?_eq_getElem hk))

theorem numParts_eq (ht : t.Full partPieces) (hnum : t.numPieces partPieces ≤ maxLength) :
    numParts t = t.numPieces partPieces := by
  obtain ⟨ps, happend, hview⟩ := append_pieces t (fits_of_full ht hnum) ⟨[], false⟩
  have := congrArg List.length hview
  rw [List.length_map, List.length_map, LType.length_pieces] at this
  simp [numParts, happend, this]

/-- Of a full type the lowering makes as many parts as there are pieces. -/
theorem countBefore_numParts (ht : t.Full partPieces) (hnum : t.numPieces partPieces ≤ maxLength)
    (path : List ℕ) :
    t.countBefore numParts path = t.countBefore (LType.numPieces partPieces) path := by
  induction path generalizing t with
  | nil => rfl
  | cons k path ih =>
    cases hk : t.members[k]? with
    | none => simp [LType.countBefore, hk]
    | some m =>
      have hleaf : ∀ s, t ≠ .leaf s := by
        rintro s rfl
        simp [LType.members] at hk
      have hfull := ((LType.full_iff partPieces hleaf).mp ht).2
      have hle (e : LType Leaf) (he : e ∈ t.members) :=
        (LType.numPieces_le_of_mem partPieces hleaf he).trans hnum
      have hm := List.mem_of_getElem? hk
      simp only [LType.countBefore, hk]
      rw [ih (hfull m hm) (hle m hm)]
      congr 2
      exact List.map_congr_left fun e he =>
        numParts_eq (hfull e (List.mem_of_mem_take he)) (hle e (List.mem_of_mem_take he))

/-- A lowered type has no more parts than a type may have. -/
theorem lowerComplexType_length {parts : List Part} (h : lowerComplexType t = some parts) :
    parts.length ≤ maxLength := by
  obtain ⟨⟨st, size, align⟩, -, hlower⟩ := Option.bind_eq_some_iff.mp h
  dsimp only at hlower
  split_ifs at hlower with hlimit
  cases hlower
  simp only [Bool.or_eq_true, decide_eq_true_eq, not_or, not_lt] at hlimit
  exact hlimit.2

theorem lowerComplexType_nesting (hfits : Fits t) {parts : List Part}
    (h : lowerComplexType t = some parts) : parts.map Part.nesting = (t.walk partPieces).map nesting := by
  obtain ⟨⟨st, size, align⟩, happend, hlower⟩ := Option.bind_eq_some_iff.mp h
  have hnesting := append_nesting hfits happend
  dsimp only at hlower
  split_ifs at hlower
  cases hlower
  exact hnesting

/-- A leaf is lowered to few parts. -/
theorem numPieces_leaf_le {s : Leaf} {parts : List Part} (h : lowerComplexType (.leaf s) = some parts) :
    (LType.leaf s).numPieces partPieces ≤ maxLength := by
  cases hs : s.lower with
  | none => simp [LType.numPieces, partPieces, hs]
  | some r =>
    have hlen := lowerComplexType_length h
    obtain ⟨⟨st, size, align⟩, happend, hlower⟩ := Option.bind_eq_some_iff.mp h
    dsimp only at hlower
    split_ifs at hlower
    cases hlower
    rw [complexTypesAppend, hs] at happend
    cases happend
    simpa [LType.numPieces, partPieces, hs] using hlen

/-- If every path leads to its parts, there are not too many. -/
theorem Selects.numPieces_le {parts : List Part} (hlower : lowerComplexType t = some parts)
    (h : Selects t parts) :
    t.numPieces partPieces ≤ maxLength := by
  by_cases hleaf : ∃ s, t = .leaf s
  · obtain ⟨s, rfl⟩ := hleaf
    exact numPieces_leaf_le hlower
  have ht : ∀ s, t ≠ .leaf s := fun s hs => hleaf ⟨s, hs⟩
  have hlen := lowerComplexType_length hlower
  have hmax : maxLength = 65535 := rfl
  -- each member is lowered to its pieces
  have hmember (k : ℕ) (hk : k < 2 ^ 32) (m : LType Leaf) (hm : t.members[k]? = some m) :
      m.Full partPieces ∧ m.numPieces partPieces ≤ maxLength := by
    have hle (path : List ℕ) (e : LType Leaf) (hpath : ∀ j ∈ path, j < 2 ^ 32) (he : m.sub path = some e) :
        0 < e.numPieces partPieces ∧ e.numPieces partPieces ≤ maxLength := by
      obtain ⟨first, last, heq, -, hlast⟩ :=
        h (k :: path) e ⟨by simp, List.forall_mem_cons.mpr ⟨hk, hpath⟩, by rw [LType.sub, hm]; exact he⟩
      have := complexPartForIndex_bound heq
      omega
    have hnum := (hle [] m (by simp) rfl).2
    exact ⟨full_of_paths hnum fun path e hpath he => (hle path e hpath he).1, hnum⟩
  have hparts (k : ℕ) (hk : k < 2 ^ 32) (m : LType Leaf) (hm : t.members[k]? = some m) :
    numParts m = m.numPieces partPieces :=
    numParts_eq (hmember k hk m hm).1 (hmember k hk m hm).2
  have hcount : t.members.length ≤ 65536 := by
    by_contra hcount
    have hget : t.members[65536]? = some t.members[65536] := List.getElem?_eq_getElem (by omega)
    obtain ⟨first, last, heq, hfirst, -⟩ := h [65536] _ ⟨by simp, by simp, by rw [LType.sub, hget]; rfl⟩
    have hsum := le_sum_take 65536 (l := t.members) numParts (by omega) (fun i hi e he => by
      rw [hparts i (by omega) e he]
      exact Full.numPieces_pos (hmember i (by omega) e he).1)
    have hbound := complexPartForIndex_bound heq
    simp only [LType.countBefore, hget] at hfirst
    omega
  rw [LType.numPieces_eq partPieces ht]
  rcases List.eq_nil_or_concat t.members with hnil | ⟨init, m, hinit⟩
  · simp [hnil]
  have hget : t.members[init.length]? = some m := by simp [hinit]
  have hlength : t.members.length = init.length + 1 := by simp [hinit]
  obtain ⟨first, last, heq, hfirst, hlast⟩ :=
    h [init.length] m ⟨by simp, by simp; omega, by rw [LType.sub, hget]; rfl⟩
  have hbound := complexPartForIndex_bound heq
  have htake :
    ((t.members.take init.length).map numParts).sum = (init.map (LType.numPieces partPieces)).sum := by
    rw [hinit, List.concat_eq_append, List.take_left]
    refine congrArg List.sum (List.map_congr_left fun e he => ?_)
    obtain ⟨k, hk, rfl⟩ := List.mem_iff_getElem.mp he
    refine hparts k (by omega) _ ?_
    rw [hinit, List.concat_eq_append, List.getElem?_append_left hk, List.getElem?_eq_getElem hk]
  simp only [LType.countBefore, hget] at hfirst
  rw [htake] at hfirst
  rw [hinit, List.concat_eq_append, List.map_append, List.sum_append, List.map_singleton, List.sum_singleton]
  omega

/-- If every path leads to its parts, no piece begins or ends too much. -/
theorem Selects.small {parts : List Part} (hlower : lowerComplexType t = some parts) (h : Selects t parts)
    (ht : t.Full partPieces) : ∀ v ∈ t.walk partPieces, Small v := by
  have hnum := h.numPieces_le hlower
  have hparts := lowerComplexType_nesting (fits_of_full ht hnum) hlower
  by_contra hbad
  obtain ⟨v, hfind⟩ : ∃ v, (t.walk partPieces).find? (fun v => !decide (Small v)) = some v := by
    rw [← Option.isSome_iff_exists, List.find?_isSome]
    obtain ⟨v, hv, hsmall⟩ : ∃ v ∈ t.walk partPieces, ¬ Small v := by simpa using hbad
    exact ⟨v, hv, by simpa using hsmall⟩
  obtain ⟨hv, l, r, hwalk, hl⟩ := List.find?_eq_some_iff_append.mp hfind
  have hv : ¬ Small v := by simpa using hv
  have hl : ∀ u ∈ l, Small u := fun u hu => by simpa using hl u hu
  have hget : (t.walk partPieces)[l.length]? = some v := by simp [hwalk]
  have hindex : ∀ k ∈ v.path, k < 2 ^ 32 := by
    intro k hk
    have hle := (LType.steps_nil_walk partPieces (ht.leading partPieces)).path_le (n := 0) (by simp) hget k hk
    have hlt := (List.getElem?_eq_some_iff.mp hget).1
    rw [LType.length_walk] at hlt
    unfold maxLength at hnum
    omega
  obtain ⟨-, -, -, st, -, -, -, -, hpath, hclosed⟩ := parts_split ht hparts hwalk
  by_cases hopens : 16 ≤ v.opens
  · obtain ⟨e, he, -⟩ := LType.sub_of_walk partPieces hget (j := v.path.length) le_rfl
    rw [List.take_length] at he
    have hne : v.path ≠ [] := by
      rw [hpath]
      simp
      omega
    obtain ⟨first, last, heq, -⟩ := h v.path e ⟨hne, hindex, he⟩
    rw [complexPartForIndex_opens ht hparts hwalk hl hopens] at heq
    cases heq
  · have hcloses : 16 ≤ v.closes := by
      by_contra hcloses
      exact hv ⟨by omega, by omega⟩
    set n := max 1 (v.path.length - v.closes) with hn
    obtain ⟨e, he, -⟩ := LType.sub_of_walk partPieces hget (j := n) (by omega)
    have hne : v.path.take n ≠ [] := by
      refine List.length_pos_iff.mp ?_
      rw [List.length_take]
      omega
    obtain ⟨first, last, heq, hfirst, hlast⟩ :=
      h (v.path.take n) e ⟨hne, fun k hk => hindex k (List.mem_of_mem_take hk), he⟩
    rw [countBefore_numParts ht hnum] at hfirst
    exact complexPartForIndex_closes ht hparts hwalk hl (by omega) hcloses hn he heq (by omega)

/-- With few enough pieces a type with members is full if no path leads to something without. -/
theorem full_of_validPaths (h : ∀ path e, ValidPath t path e → 0 < e.numPieces partPieces)
    (hnum : t.numPieces partPieces ≤ maxLength)
    (hne : t.members ≠ []) : t.Full partPieces := by
  have ht : ∀ s, t ≠ .leaf s := by
    rintro s rfl
    exact hne rfl
  refine full_of_paths hnum fun path e hpath he => ?_
  cases path with
  | nil =>
    obtain rfl := Option.some.inj he
    obtain ⟨m, ms, hms⟩ := List.exists_cons_of_ne_nil hne
    have hpos := h [0] m ⟨by simp, by simp, by simp [LType.sub, hms]⟩
    exact hpos.trans_le (LType.numPieces_le_of_mem partPieces ht (by simp [hms]))
  | cons k path => exact h (k :: path) e ⟨by simp, hpath, he⟩

/-- **Every path leads to its parts exactly if** none leads to an element without parts, the type has at most
65535, and no part begins or ends 16 arrays and structs at once. -/
theorem complexPartForIndex_iff (t : LType Leaf) {parts : List Part}
    (hlower : lowerComplexType t = some parts) :
    Selects t parts ↔ (∀ path e, ValidPath t path e → 0 < e.numPieces partPieces) ∧
      t.numPieces partPieces ≤ maxLength ∧
      ∀ v ∈ t.walk partPieces, Small v := by
  constructor
  · intro h
    have hpaths : ∀ path e, ValidPath t path e → 0 < e.numPieces partPieces := by
      intro path e hvalid
      obtain ⟨first, last, heq, -, hlast⟩ := h path e hvalid
      have := complexPartForIndex_bound heq
      omega
    have hnum := h.numPieces_le hlower
    refine ⟨hpaths, hnum, ?_⟩
    by_cases hne : t.members = []
    · cases t with
      | leaf s =>
        intro v hv
        obtain ⟨i, -, rfl⟩ := List.mem_map.mp hv
        exact ⟨Nat.zero_lt_succ 15, Nat.zero_lt_succ 15⟩
      | array n e => simp [LType.walk_eq partPieces (t := .array n e) (by simp), hne, walkAll, wrap]
      | struct packed es =>
        simp [LType.walk_eq partPieces (t := .struct packed es) (by simp), hne, walkAll, wrap]
    · exact h.small hlower (full_of_validPaths hpaths hnum hne)
  · rintro ⟨hpaths, hnum, hsmall⟩ path e hvalid
    have hne : t.members ≠ [] := by
      intro hnil
      have hsub := hvalid.sub_eq
      cases path with
      | nil => exact hvalid.ne_nil rfl
      | cons k path => simp [LType.sub, hnil] at hsub
    have ht := full_of_validPaths hpaths hnum hne
    rw [countBefore_numParts ht hnum]
    exact complexPartForIndex_eq ht (lowerComplexType_nesting (fits_of_full ht hnum) hlower) hsmall
      hvalid.ne_nil hvalid.sub_eq

end

/-- `{ i8, [2 x { i32, i8 }], i128 }` has all its parts found. -/
theorem selects_nested : ∃ parts, lowerComplexType nested = some parts ∧ Selects nested parts := by
  obtain ⟨parts, hlower⟩ : ∃ parts, lowerComplexType nested = some parts :=
    Option.isSome_iff_exists.mp (by decide +kernel)
  have hfull : nested.Full partPieces := by
    have hleaf (s : Leaf) (hs : 0 < (partPieces.kinds s).length) : (LType.leaf s).Full partPieces := hs
    exact ⟨by simp, hleaf _ (by decide),
      ⟨by decide, by simp, hleaf _ (by decide), hleaf _ (by decide), trivial⟩,
      hleaf _ (by decide), trivial⟩
  refine ⟨parts, hlower,
    (complexPartForIndex_iff nested hlower).mpr
    ⟨fun path e hvalid => ?_, by decide +kernel, by decide +kernel⟩⟩
  exact Full.numPieces_pos (LType.Full.of_sub partPieces hfull hvalid.sub_eq)

/-- `{ {}, i32, i32 }`. -/
def emptyFirst : LType Leaf :=
  .struct false [.struct false [], .leaf (.int 32 Leaf.i32_ok), .leaf (.int 32 Leaf.i32_ok)]

/-- The empty member has no part, and the second of the two parts is taken for the first. -/
theorem emptyFirst_not_selects : ∃ parts, lowerComplexType emptyFirst = some parts ∧
    emptyFirst.countBefore numParts [1] = 0 ∧
    complexPartForIndex parts [1] = some (1, 1) ∧ ¬ Selects emptyFirst parts := by
  refine ⟨[⟨⟨.i32, 4, true⟩, 0, 1, 0⟩,
    ⟨⟨.i32, 4, true⟩, 0, 0, 1⟩], by decide +kernel, by decide +kernel, by decide +kernel, ?_⟩
  intro h
  obtain ⟨first, last, heq, hfirst, -⟩ := h [1] (.leaf (.int 32 (by decide))) ⟨by simp, by simp, rfl⟩
  have hright : complexPartForIndex [⟨⟨.i32, 4, true⟩, 0, 1, 0⟩, ⟨⟨.i32, 4, true⟩, 0, 0, 1⟩] [1] =
    some (1, 1) := by decide +kernel
  cases hright.symm.trans heq
  revert hfirst
  decide +kernel

end Tpde.ComplexTypes
