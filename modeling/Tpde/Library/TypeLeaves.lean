import Tpde.Library.TypeWalk
import Mathlib.Data.List.Chain

/-!
# The leaves along a walk

From one piece to the next the indices go on at the place that is left by what ends in
between (`chain_walk`). The stack that is kept along a walk has just these indices if and
only if in no struct a member with pieces follows one without (`leading_of_steps`). The
pieces of a walk are those of the leaves, in their order (`walk_leafPaths`).
-/

namespace TypeLayout

/-- A piece and the one that follows it: one of the same leaf, or one of the next leaf, which is reached
where the first is left. -/
inductive Visit.Next (u v : Visit) : Prop
  | same (hends : u.ends = false) (hcloses : u.closes = 0) (hopens : v.opens = 0) (hpath : v.path = u.path)
  | up {q r r' : List ℕ} {a b : ℕ} (hends : u.ends = true) (hu : u.path = q ++ a :: r)
    (hcloses : r.length = u.closes)
    (hv : v.path = q ++ b :: r') (hopens : r'.length = v.opens) (hlt : a < b)

namespace Visit.Next

variable {u v : Visit}

theorem under (h : u.Next v) (p : List ℕ) : (u.under p).Next (v.under p) := by
  cases h with
  | same hends hcloses hopens hpath => exact .same hends hcloses hopens (congrArg (p ++ ·) hpath)
  | @up q _ _ _ _ hends hu hcloses hv hopens hlt =>
    refine .up (q := p ++ q) hends ?_ hcloses ?_ hopens hlt
    · exact (congrArg (p ++ ·) hu).trans (List.append_assoc ..).symm
    · exact (congrArg (p ++ ·) hv).trans (List.append_assoc ..).symm

theorem addOpen (h : u.Next v) : u.addOpen.Next v := by
  cases h with
  | same hends hcloses hopens hpath => exact .same hends hcloses hopens hpath
  | up hends hu hcloses hv hopens hlt => exact .up hends hu hcloses hv hopens hlt

theorem addClose (h : u.Next v) : u.Next v.addClose := by
  cases h with
  | same hends hcloses hopens hpath => exact .same hends hcloses hopens hpath
  | up hends hu hcloses hv hopens hlt => exact .up hends hu hcloses hv hopens hlt

/-- The next piece lies where the first is left. -/
theorem length_path (h : u.Next v) : v.path.length = u.path.length - u.closes + v.opens := by
  cases h with
  | same hends hcloses hopens hpath => rw [hpath, hcloses, hopens, Nat.sub_zero, Nat.add_zero]
  | up hends hu hcloses hv hopens hlt =>
    rw [hu, hv, List.length_append, List.length_append, List.length_cons, List.length_cons]
    omega

/-- A stack from which less is popped than what ends does not lead to the next piece. -/
theorem not_prefix (h : u.Next v) {n : ℕ} (hlo : u.path.length - u.closes < n) (hhi : n ≤ u.path.length)
    {r : List ℕ} :
    ¬ v.path <+: (if u.ends then bump (u.path.take n) else u.path.take n) ++ r := by
  cases h with
  | same hends hcloses => omega
  | @up q r₁ r₂ a b hends hu hcloses hv hopens hlt =>
    intro hprefix
    have hlen : u.path.length = q.length + (r₁.length + 1) := by rw [hu, List.length_append, List.length_cons]
    have hv' : v.path[q.length]? = some b := by
      rw [hv, List.getElem?_append_right le_rfl, Nat.sub_self, List.getElem?_cons_zero]
    have htake : (u.path.take n)[q.length]? = some a := by
      rw [List.getElem?_take_of_lt (by omega), hu, List.getElem?_append_right le_rfl, Nat.sub_self,
        List.getElem?_cons_zero]
    have hbump : (bump (u.path.take n))[q.length]? = some a := by
      have hne : (u.path.take n).length - 1 ≠ q.length := by
        rw [List.length_take]
        omega
      rw [bump, List.getElem?_modify_ne _ _ hne, htake]
    rw [if_pos hends] at hprefix
    obtain ⟨r', hr'⟩ := hprefix
    have hget := congrArg (·[q.length]?) hr'
    simp only [List.getElem?_append_left (List.getElem?_eq_some_iff.mp hv').1,
      List.getElem?_append_left (List.getElem?_eq_some_iff.mp hbump).1, hv', hbump, Option.some.injEq] at hget
    omega

end Visit.Next

/-- What a walk over all there is looks like: its first piece begins all that it lies in, and its last
piece ends it. -/
structure Whole (l : List Visit) : Prop where
  chain : l.IsChain Visit.Next
  first : ∀ v, l.head? = some v → v.path.length = v.opens
  last : ∀ v, l.getLast? = some v → v.ends = true ∧ v.path.length = v.closes

/-- The walks over members, with their indices. -/
structure Members (k : ℕ) (l : List Visit) : Prop where
  chain : l.IsChain Visit.Next
  first : ∀ v, l.head? = some v → ∃ j r, v.path = j :: r ∧ r.length = v.opens ∧ k ≤ j
  last : ∀ v, l.getLast? = some v → v.ends = true ∧ ∃ j r, v.path = j :: r ∧ r.length = v.closes

theorem members_walkAll {ws : List (List Visit)} (h : ∀ w ∈ ws, Whole w) (k : ℕ) :
    Members k (walkAll ws k) := by
  induction ws generalizing k with
  | nil => exact ⟨.nil, nofun, nofun⟩
  | cons w ws ih =>
    obtain ⟨hw, hws⟩ := List.forall_mem_cons.mp h
    obtain ⟨hchain, hfirst, hlast⟩ := ih hws (k + 1)
    have hwfirst : ∀ v, (w.map (Visit.under [k])).head? = some v → ∃ r, v.path = k :: r ∧
      r.length = v.opens := by
      intro v hv
      rw [List.head?_map] at hv
      obtain ⟨u, hu, rfl⟩ := Option.map_eq_some_iff.mp hv
      exact ⟨u.path, rfl, hw.first u hu⟩
    have hwlast : ∀ v, (w.map (Visit.under [k])).getLast? = some v → v.ends = true ∧ ∃ r,
      v.path = k :: r ∧ r.length = v.closes := by
      intro v hv
      rw [List.getLast?_map] at hv
      obtain ⟨u, hu, rfl⟩ := Option.map_eq_some_iff.mp hv
      exact ⟨(hw.last u hu).1, u.path, rfl, (hw.last u hu).2⟩
    refine ⟨?_, fun v hv => ?_, fun v hv => ?_⟩
    · refine List.isChain_append.mpr ⟨?_, hchain, fun u hu v hv => ?_⟩
      · exact List.isChain_map_of_isChain _ (fun _ _ huv => huv.under [k]) hw.chain
      · obtain ⟨hends, r, hpath, hcloses⟩ := hwlast u hu
        obtain ⟨j, r', hpath', hopens, hj⟩ := hfirst v hv
        exact .up (q := []) hends hpath hcloses hpath' hopens hj
    · rw [walkAll, List.head?_append, Option.or_eq_some_iff] at hv
      rcases hv with hv | ⟨-, hv⟩
      · obtain ⟨r, hpath, hopens⟩ := hwfirst v hv
        exact ⟨k, r, hpath, hopens, le_rfl⟩
      · obtain ⟨j, r, hpath, hopens, hj⟩ := hfirst v hv
        exact ⟨j, r, hpath, hopens, by omega⟩
    · rw [walkAll, List.getLast?_append, Option.or_eq_some_iff] at hv
      rcases hv with hv | ⟨-, hv⟩
      · exact hlast v hv
      · obtain ⟨hends, r, hpath, hcloses⟩ := hwlast v hv
        exact ⟨hends, k, r, hpath, hcloses⟩

/-- An array or struct begins with the first piece and ends with the last. -/
theorem Members.wrap {k : ℕ} {l : List Visit} (h : Members k l) : Whole (wrap l) := by
  obtain ⟨hchain, hfirst, hlast⟩ := h
  refine ⟨?_, fun v hv => ?_, fun v hv => ?_⟩
  · rw [List.isChain_iff_getElem]
    intro i hi
    rw [length_wrap] at hi
    have hnext := List.isChain_iff_getElem.mp hchain i hi
    simp only [TypeLayout.wrap, List.getElem_modify]
    have hne : l.length - 1 ≠ i := by omega
    simp only [if_neg hne, if_neg (Nat.succ_ne_zero i).symm]
    split <;> split
    · exact hnext.addOpen.addClose
    · exact hnext.addOpen
    · exact hnext.addClose
    · exact hnext
  · cases l with
    | nil => cases hv
    | cons u l =>
      obtain ⟨j, r, hpath, hopens, -⟩ := hfirst u rfl
      have hv : v.path = u.path ∧ v.opens = u.opens + 1 := by
        cases l with
        | nil =>
          obtain rfl := Option.some.inj hv
          exact ⟨rfl, rfl⟩
        | cons u' l =>
          obtain rfl := Option.some.inj hv
          exact ⟨rfl, rfl⟩
      rw [hv.1, hv.2, hpath, List.length_cons, hopens]
  · obtain ⟨u, hu, hpath, hcloses, hends⟩ := LType.getLast?_wrap hv
    obtain ⟨huends, j, r, hupath, hucloses⟩ := hlast u hu
    exact ⟨hends.trans huends, by rw [hpath, hcloses, hupath, List.length_cons, hucloses]⟩

namespace LType

variable {σ κ : Type} {T : Table σ} (P : Pieces T κ)

/-- **From each piece the walk goes on where it is left.** -/
theorem whole_walk (t : LType σ) : Whole (walk P t) := by
  induction t using members_induction with
  | leaf s =>
    refine ⟨List.isChain_iff_getElem.mpr fun i hi => ?_, fun v hv => ?_, fun v hv => ⟨ends_walk P _ v hv, ?_⟩⟩
    · simp only [walk, List.length_map, List.length_range] at hi
      simp only [walk, List.getElem_map, List.getElem_range]
      exact .same (by simpa using by omega) rfl rfl rfl
    · rw [walk, List.head?_map] at hv
      obtain ⟨i, -, rfl⟩ := Option.map_eq_some_iff.mp hv
      rfl
    · rw [walk, List.getLast?_map] at hv
      obtain ⟨i, -, rfl⟩ := Option.map_eq_some_iff.mp hv
      rfl
  | node t ht ih =>
    rw [walk_eq P ht]
    refine Members.wrap (members_walkAll (fun w hw => ?_) 0)
    obtain ⟨e, he, rfl⟩ := List.mem_map.mp hw
    exact ih e he

/-! ### Walks that the stack follows -/

end LType

namespace Steps

variable {st st' st'' : List ℕ} {l : List Visit}

theorem unique (h : Steps st l st') (h' : Steps st l st'') : st' = st'' := by
  induction h with
  | nil =>
    cases h'
    rfl
  | cons _ _ _ ih =>
    cases h' with
    | cons _ _ h' => exact ih h'

/-- The stack within an array or struct. -/
theorem of_wrap (hne : l ≠ []) (h : Steps st (wrap l) st') : ∃ st'', Steps (st ++ [0]) l st'' := by
  have hopen : ∃ st'', Steps st (l.modify 0 Visit.addOpen) st'' := by
    obtain ⟨l', v, hl⟩ : ∃ l' v, l.modify 0 Visit.addOpen = l' ++ [v] :=
      ⟨_, _, (List.dropLast_append_getLast (by simpa [← List.length_eq_zero_iff] using hne)).symm⟩
    have hwrap : wrap l = l' ++ [v.addClose] := by
      have := modify_concat Visit.addClose l' v
      rwa [← hl, List.length_modify] at this
    rw [hwrap] at h
    obtain ⟨st₁, h, hlast⟩ := h.append_inv
    rw [hl]
    cases hlast with
    | cons hpath hcloses _ => exact ⟨_, h.append (.cons hpath ((Nat.le_succ _).trans hcloses) (.nil _))⟩
  obtain ⟨v, l, rfl⟩ := List.exists_cons_of_ne_nil hne
  obtain ⟨st'', h⟩ := hopen
  cases h with
  | cons hpath hcloses h =>
    refine ⟨st'', .cons ?_ hcloses h⟩
    have hpath : v.path = st ++ List.replicate (v.opens + 1) 0 := hpath
    rw [hpath, List.append_assoc]
    rfl

end Steps

namespace LType

variable {σ κ : Type} {T : Table σ} (P : Pieces T κ)

/-- The members that the stack follows are leading, and the first of them has pieces if another one has. -/
theorem leading_of_stepsAll {es : List (LType σ)}
    (ih : ∀ e ∈ es, ∀ q st, Steps q ((walk P e).map (Visit.under q)) st → Leading P e)
    {q st : List ℕ} {k : ℕ} (h : Steps (q ++ [k]) ((walkAll (es.map (walk P)) k).map (Visit.under q)) st) :
    (∀ e ∈ es, Leading P e) ∧ es.Pairwise fun a b => numPieces P a = 0 → numPieces P b = 0 := by
  induction es generalizing k with
  | nil => exact ⟨nofun, .nil⟩
  | cons e es ihs =>
    obtain ⟨ihe, ih⟩ := List.forall_mem_cons.mp ih
    rw [List.map_cons, map_under_walkAll_cons] at h
    obtain ⟨st₁, he, hes⟩ := h.append_inv
    have hlead := ihe _ _ he
    by_cases hnone : walk P e = []
    · rw [hnone] at he
      cases he
      -- the stack has the index of `e`, and a piece behind it would have another one
      have hempty : walkAll (es.map (walk P)) (k + 1) = [] := by
        by_contra hne
        obtain ⟨v, l, hl⟩ := List.exists_cons_of_ne_nil hne
        have hwhole : ∀ w ∈ es.map (walk P), Whole w := fun w hw => by
          obtain ⟨e, -, rfl⟩ := List.mem_map.mp hw
          exact whole_walk P e
        obtain ⟨j, r, hpath, -, hj⟩ := (members_walkAll hwhole (k + 1)).first v (by rw [hl]; rfl)
        rw [hl, List.map_cons] at hes
        cases hes with
        | cons hpath' _ _ =>
          have hpath' : q ++ v.path = q ++ [k] ++ List.replicate v.opens 0 := hpath'
          rw [List.append_assoc, List.append_cancel_left_eq, hpath] at hpath'
          have := (List.cons.inj hpath').1
          omega
      have hzero : ∀ b ∈ es, numPieces P b = 0 := by
        have hlen := congrArg List.length hempty
        rw [length_walkAll, List.map_map, List.length_nil, List.sum_eq_zero_iff] at hlen
        intro b hb
        rw [← length_walk P b]
        exact hlen _ (List.mem_map_of_mem hb)
      refine ⟨List.forall_mem_cons.mpr ⟨hlead, fun b hb => leading_of_numPieces P (hzero b hb)⟩,
        List.pairwise_cons.mpr ⟨?_, ?_⟩⟩
      · exact fun b hb _ => hzero b hb
      · exact List.pairwise_of_forall_mem_list fun a _ b hb _ => hzero b hb
    · have hst := (steps_walk P hlead hnone (q ++ [k])).unique he
      rw [bump_concat] at hst
      obtain ⟨hall, hpair⟩ := ihs ih (hst ▸ hes)
      refine ⟨List.forall_mem_cons.mpr ⟨hlead, hall⟩, List.pairwise_cons.mpr ⟨fun b _ h => ?_, hpair⟩⟩
      exact absurd ((walk_eq_nil P).mpr h) hnone

/-- **The stack follows a walk only if** what has pieces comes first. -/
theorem leading_of_steps (t : LType σ) : ∀ q st, Steps q ((walk P t).map (Visit.under q)) st →
    Leading P t := by
  induction t using members_induction with
  | leaf s => exact fun _ _ _ => trivial
  | node t ht ih =>
    intro q st h
    by_cases hne : walk P t = []
    · exact leading_of_numPieces P ((walk_eq_nil P).mp hne)
    · rw [walk_eq P ht] at hne h
      rw [map_under_wrap] at h
      obtain ⟨st', h⟩ := h.of_wrap (by simpa [wrap] using hne)
      exact (leading_iff P ht).mpr (leading_of_stepsAll P ih h)

/-! ### The pieces of the leaves -/

theorem leafPaths_eq {t : LType σ} (ht : ∀ s, t ≠ leaf s) : leafPaths t = memberPaths t.members 0 := by
  cases t with
  | leaf s => exact absurd rfl (ht s)
  | array n e =>
    have hreplicate (n j : ℕ) : memberPaths (List.replicate n e) j =
        (List.range' j n).flatMap fun i => (leafPaths e).map fun x => (i :: x.1, x.2) := by
      induction n generalizing j with
      | zero => rfl
      | succ n ih => rw [List.replicate_succ, memberPaths, ih, List.range'_succ, List.flatMap_cons]
    rw [leafPaths, members, hreplicate, List.range_eq_range']
  | struct packed es => rfl

/-- What a leaf's indices lead to. -/
theorem sub_of_mem_leafPaths {t : LType σ} : ∀ x ∈ leafPaths t, sub t x.1 = some (leaf x.2) := by
  induction t using members_induction with
  | leaf s =>
    intro x hx
    obtain rfl := List.mem_singleton.mp hx
    rfl
  | node t ht ih =>
    intro x hx
    rw [leafPaths_eq ht] at hx
    obtain ⟨i, e, path, he, hpath, hmem⟩ := mem_memberPaths hx
    rw [Nat.zero_add] at hpath
    rw [hpath, sub]
    simp only [he]
    exact ih e (List.mem_of_getElem? he) _ hmem

/-- The pieces of the leaves in order: the indices that lead to the leaf, the piece, and its number in
the leaf. -/
def leafPieces (t : LType σ) : List (List ℕ × κ × ℕ) :=
  t.leafPaths.flatMap fun x => (P.kinds x.2).mapIdx fun j k => (x.1, k, j)

/-- What a walk says of a leaf with `n` pieces. -/
def leafVisits (path : List ℕ) (n : ℕ) : List (List ℕ × Bool) := (List.range n).map fun j =>
    (path, j + 1 == n)

theorem view_wrap (l : List Visit) : (wrap l).map (fun v => (v.path, v.ends)) = l.map fun v =>
    (v.path, v.ends) := by
  rw [wrap, map_modify (h := id) Visit.addClose (fun _ => rfl), List.modify_id,
    map_modify (h := id) Visit.addOpen (fun _ => rfl),
    List.modify_id]

theorem view_walkAll {es : List (LType σ)} (ih : ∀ e ∈ es, (walk P e).map (fun v => (v.path, v.ends)) =
    e.leafPaths.flatMap fun x => leafVisits x.1 (P.kinds x.2).length) (k : ℕ) :
    (walkAll (es.map (walk P)) k).map (fun v => (v.path, v.ends)) =
      (memberPaths es k).flatMap fun x => leafVisits x.1 (P.kinds x.2).length := by
  induction es generalizing k with
  | nil => rfl
  | cons e es ihs =>
    obtain ⟨ihe, ih⟩ := List.forall_mem_cons.mp ih
    have hunder : ((walk P e).map (Visit.under [k])).map (fun v => (v.path, v.ends)) =
        ((walk P e).map fun v => (v.path, v.ends)).map fun y => (k :: y.1, y.2) := by
      rw [List.map_map, List.map_map]
      rfl
    rw [List.map_cons, walkAll, List.map_append, ihs ih, hunder, ihe, memberPaths, List.flatMap_append,
      List.map_flatMap,
      List.flatMap_map]
    congr 2
    funext x
    rw [leafVisits, List.map_map]
    rfl

/-- **The pieces of a walk are those of the leaves.** -/
theorem walk_leafPaths (t : LType σ) : (walk P t).map (fun v => (v.path, v.ends)) =
    t.leafPaths.flatMap fun x => leafVisits x.1 (P.kinds x.2).length := by
  induction t using members_induction with
  | leaf s =>
    rw [walk, List.map_map, leafPaths, List.flatMap_singleton]
    rfl
  | node t ht ih => rw [walk_eq P ht, view_wrap, leafPaths_eq ht, view_walkAll P ih]

theorem path_leafPieces (t : LType σ) : (leafPieces P t).map (·.1) = (walk P t).map Visit.path := by
  have h := congrArg (List.map Prod.fst) (walk_leafPaths P t)
  rw [List.map_map, List.map_flatMap] at h
  refine Eq.trans ?_ h.symm
  rw [leafPieces, List.map_flatMap]
  congr 1
  funext x
  exact List.ext_getElem (by simp [leafVisits]) fun i _ _ => by simp [leafVisits]

theorem kind_leafPieces (t : LType σ) : (leafPieces P t).map (·.2.1) = (pieces P t).map (·.1) := by
  have h := congrArg (List.map Prod.snd) ((pieces_spec P t).1 0)
  rw [snd_offsets, spread, leaves_eq_map, List.flatMap_map, List.map_flatMap] at h
  rw [h, leafPieces, List.map_flatMap]
  congr 1
  funext x
  rw [snd_offsets]
  exact List.ext_getElem (by simp) fun i _ _ => by simp

/-- The numbers of pieces in their leaves, from which of them end one. -/
def numbers : List Bool → ℕ → List ℕ
  | [], _ => []
  | ends :: l, j => j :: numbers l (if ends then 0 else j + 1)

theorem numbers_leaf (n : ℕ) (l : List Bool) (m : ℕ) (hm : m < n) :
    numbers ((List.range' m (n - m)).map (fun j => j + 1 == n) ++ l) m = List.range' m (n - m) ++
      numbers l 0 := by
  obtain ⟨d, rfl⟩ : ∃ d, n = m + (d + 1) := ⟨n - m - 1, by omega⟩
  rw [Nat.add_sub_cancel_left]
  induction d generalizing m with
  | zero => simp [numbers]
  | succ d ih =>
    have hends : (m + 1 == m + (d + 1 + 1)) = false := by simp
    rw [List.range'_succ, List.map_cons, List.cons_append, numbers, hends, List.cons_append]
    have h := ih (m + 1) (by omega)
    rw [show m + 1 + (d + 1) = m + (d + 1 + 1) by omega] at h
    exact congrArg (m :: ·) h

theorem numbers_leafPieces (t : LType σ) :
    (leafPieces P t).map (·.2.2) = numbers ((walk P t).map Visit.ends) 0 := by
  have h := congrArg (List.map Prod.snd) (walk_leafPaths P t)
  rw [List.map_map] at h
  change (walk P t).map Visit.ends = _ at h
  rw [h, leafPieces]
  generalize leafPaths t = l
  induction l with
  | nil => rfl
  | cons x l ih =>
    have hidx : ((P.kinds x.2).mapIdx fun j k => (x.1, k, j)).map (·.2.2) = List.range (P.kinds x.2).length :=
      List.ext_getElem (by simp) fun i _ _ => by simp
    rw [List.flatMap_cons, List.map_append, ih, hidx, List.flatMap_cons, List.map_append, leafVisits,
      List.map_map]
    rcases Nat.eq_zero_or_pos (P.kinds x.2).length with hnone | hpos
    · rw [hnone]
      rfl
    · have hleaf :=
        numbers_leaf (P.kinds x.2).length
          ((l.flatMap fun x => leafVisits x.1 (P.kinds x.2).length).map Prod.snd) 0 hpos
      rw [Nat.sub_zero, ← List.range_eq_range'] at hleaf
      exact hleaf.symm

end LType

end TypeLayout
