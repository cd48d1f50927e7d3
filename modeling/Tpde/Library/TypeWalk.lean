import Tpde.Library.TypePaths

/-!
# Walks over nested types

The pieces of a type, in order, each with the indices that lead to it, the number of arrays
and structs that begin with it and the number of those that end with it. From these numbers
alone a stack of indices can be kept that holds, at each piece, the indices that lead there
(`steps_walk`). What is at the end of a path is a run of pieces: all before it lie at smaller
indices (`Before`), and the last of it is the first that leaves (`Target`, `walk_split`).
-/

namespace TypeLayout

open Ranges

/-- A piece on a walk: the arrays and structs that begin with it, the indices that lead to
it, those that end with it, and whether it is the last piece of its leaf. -/
structure Visit where
  opens : ℕ
  path : List ℕ
  closes : ℕ
  ends : Bool
  deriving DecidableEq, Repr

namespace Visit

def addOpen (v : Visit) : Visit := { v with opens := v.opens + 1 }

def addClose (v : Visit) : Visit := { v with closes := v.closes + 1 }

/-- The piece, as one of what `q` leads to. -/
def under (q : List ℕ) (v : Visit) : Visit := { v with path := q ++ v.path }

end Visit

/-- The index on top of a stack goes up. -/
def bump (st : List ℕ) : List ℕ := st.modify (st.length - 1) (· + 1)

@[simp] theorem bump_nil : bump [] = [] := rfl

@[simp] theorem bump_concat (st : List ℕ) (k : ℕ) : bump (st ++ [k]) = st ++ [k + 1] := modify_concat _ st k

@[simp] theorem length_bump (st : List ℕ) : (bump st).length = st.length := by
  simp [bump]

/-- The walk over an array or struct, from that over what it holds. -/
def wrap (l : List Visit) : List Visit := (l.modify 0 Visit.addOpen).modify (l.length - 1) Visit.addClose

/-- The walks over the members, the first of which is the `k`-th. -/
def walkAll : List (List Visit) → ℕ → List Visit
  | [], _ => []
  | w :: ws, k => w.map (Visit.under [k]) ++ walkAll ws (k + 1)

@[simp] theorem length_wrap (l : List Visit) : (wrap l).length = l.length := by simp [wrap]

namespace LType

variable {σ κ : Type} {T : Table σ} (P : Pieces T κ)

mutual
/-- The pieces of a type in order. -/
def walk : LType σ → List Visit
  | leaf s => (List.range (P.kinds s).length).map fun i => ⟨0, [], 0, i + 1 == (P.kinds s).length⟩
  | array n e => wrap (walkAll (List.replicate n (walk e)) 0)
  | struct _ es => wrap (walkAll (walkEach es) 0)
def walkEach : List (LType σ) → List (List Visit)
  | [] => []
  | e :: es => walk e :: walkEach es
end

/-- What a type holds, in order. -/
def members : LType σ → List (LType σ)
  | leaf _ => []
  | array n e => List.replicate n e
  | struct _ es => es

/-- What indices lead to. -/
def sub : LType σ → List ℕ → Option (LType σ)
  | t, [] => some t
  | t, k :: path =>
    match t.members[k]? with
    | none => none
    | some e => sub e path

/-- How much there is before what indices lead to, if `count` says how much there is of a type. -/
def countBefore (count : LType σ → ℕ) : LType σ → List ℕ → ℕ
  | _, [] => 0
  | t, k :: path =>
    match t.members[k]? with
    | none => 0
    | some e => ((t.members.take k).map count).sum + countBefore count e path

mutual
/-- Nothing in the type is empty. -/
def Full : LType σ → Prop
  | leaf s => 0 < (P.kinds s).length
  | array n e => 0 < n ∧ Full e
  | struct _ es => es ≠ [] ∧ FullMembers es
def FullMembers : List (LType σ) → Prop
  | [] => True
  | e :: es => Full e ∧ FullMembers es
end

theorem fullMembers_iff (es : List (LType σ)) : FullMembers P es ↔ ∀ e ∈ es, Full P e := by
  induction es with
  | nil => simp [FullMembers]
  | cons e es ih => simp [FullMembers, ih]

/-- An array or struct is full when it has members and they are. -/
theorem full_iff {t : LType σ} (ht : ∀ s, t ≠ leaf s) : Full P t ↔ t.members ≠ [] ∧ ∀ e ∈ t.members,
    Full P e := by
  cases t with
  | leaf s => exact absurd rfl (ht s)
  | array n e =>
    rw [Full, members]
    cases n with
    | zero => simp
    | succ n => simpa [List.replicate_succ] using fun h _ => h
  | struct packed es => rw [Full, members, fullMembers_iff]

/-- Nor is anything in what indices lead to. -/
theorem Full.of_sub {t e : LType σ} {path : List ℕ} (ht : Full P t) (he : sub t path = some e) :
    Full P e := by
  induction path generalizing t with
  | nil => rwa [← Option.some.inj he]
  | cons k path ih =>
    rw [sub] at he
    cases hk : t.members[k]? with
    | none => simp [hk] at he
    | some m =>
      have hleaf : ∀ s, t ≠ leaf s := by
        rintro s rfl
        simp [members] at hk
      simp only [hk] at he
      exact ih (((full_iff P hleaf).mp ht).2 m (List.mem_of_getElem? hk)) he

theorem walkEach_eq (es : List (LType σ)) : walkEach P es = es.map (walk P) := by
  induction es with
  | nil => rfl
  | cons e es ih => rw [walkEach, ih, List.map_cons]

theorem walk_eq {t : LType σ} (ht : ∀ s, t ≠ leaf s) :
    walk P t = wrap (walkAll (t.members.map (walk P)) 0) := by
  cases t with
  | leaf s => exact absurd rfl (ht s)
  | array n e => rw [walk, members, List.map_replicate]
  | struct packed es => rw [walk, members, walkEach_eq]

theorem numMemberPieces_eq (es : List (LType σ)) : numMemberPieces P es = (es.map (numPieces P)).sum := by
  induction es with
  | nil => rfl
  | cons e es ih => rw [numMemberPieces, ih, List.map_cons, List.sum_cons]

theorem numPieces_eq {t : LType σ} (ht : ∀ s, t ≠ leaf s) :
    numPieces P t = (t.members.map (numPieces P)).sum := by
  cases t with
  | leaf s => exact absurd rfl (ht s)
  | array n e => simp [numPieces, members]
  | struct packed es => rw [numPieces, members, numMemberPieces_eq]

/-- A member has no more pieces than there are. -/
theorem numPieces_le_of_mem {t : LType σ} (ht : ∀ s, t ≠ leaf s) {e : LType σ} (he : e ∈ t.members) :
    numPieces P e ≤ numPieces P t := by
  rw [numPieces_eq P ht]
  exact List.le_sum_of_mem (List.mem_map_of_mem he)

/-- Proves something of every type from what it holds. -/
theorem members_induction {p : LType σ → Prop} (leaf : ∀ s, p (.leaf s))
    (node : ∀ t : LType σ, (∀ s, t ≠ .leaf s) → (∀ e ∈ t.members, p e) → p t) (t : LType σ) : p t := by
  induction t using induction_on (q := fun es => ∀ e ∈ es, p e) with
  | leaf s => exact leaf s
  | array n e ih =>
    refine node _ (fun s h => by cases h) fun e' he => ?_
    rwa [List.eq_of_mem_replicate he]
  | struct packed es ih => exact node _ (fun s h => by cases h) ih
  | nil e he => cases he
  | cons e es ih ihs e' he =>
    rcases List.mem_cons.mp he with rfl | he
    · exact ih
    · exact ihs e' he

theorem length_walkAll (ws : List (List Visit)) (k : ℕ) :
    (walkAll ws k).length = (ws.map List.length).sum := by
  induction ws generalizing k with
  | nil => rfl
  | cons w ws ih => simp [walkAll, ih]

theorem length_walk (t : LType σ) : (walk P t).length = numPieces P t := by
  induction t using members_induction with
  | leaf s => simp [walk, numPieces]
  | node t ht ih =>
    rw [walk_eq P ht, numPieces_eq P ht, length_wrap, length_walkAll, List.map_map]
    exact congrArg List.sum (List.map_congr_left ih)

/-- Types without pieces are those whose walk is empty. -/
theorem walk_eq_nil {t : LType σ} : walk P t = [] ↔ numPieces P t = 0 := by
  rw [← length_walk, List.length_eq_zero_iff]

mutual
/-- What has pieces comes first in every struct. -/
def Leading : LType σ → Prop
  | leaf _ => True
  | array n e => n ≠ 0 → Leading e
  | struct _ es => LeadingMembers es
def LeadingMembers : List (LType σ) → Prop
  | [] => True
  | e :: es => Leading e ∧ (numPieces P e = 0 → numMemberPieces P es = 0) ∧ LeadingMembers es
end

theorem leadingMembers_iff (es : List (LType σ)) : LeadingMembers P es ↔
    (∀ e ∈ es, Leading P e) ∧ es.Pairwise fun a b => numPieces P a = 0 → numPieces P b = 0 := by
  induction es with
  | nil => simp [LeadingMembers]
  | cons e es ih =>
    have hsum : numMemberPieces P es = 0 ↔ ∀ b ∈ es, numPieces P b = 0 := by
      rw [numMemberPieces_eq, List.sum_eq_zero_iff]
      simp
    rw [LeadingMembers, ih, hsum, List.forall_mem_cons, List.pairwise_cons]
    constructor
    · rintro ⟨he, hnone, hes, hpair⟩
      exact ⟨⟨he, hes⟩, fun b hb h => hnone h b hb, hpair⟩
    · rintro ⟨⟨he, hes⟩, hnone, hpair⟩
      exact ⟨he, fun h b hb => hnone b hb h, hes, hpair⟩

theorem leading_iff {t : LType σ} (ht : ∀ s, t ≠ leaf s) : Leading P t ↔
    (∀ e ∈ t.members, Leading P e) ∧ t.members.Pairwise fun a b => numPieces P a = 0 → numPieces P b = 0 := by
  cases t with
  | leaf s => exact absurd rfl (ht s)
  | array n e =>
    rw [Leading, members]
    have hpair : (List.replicate n e).Pairwise fun a b => numPieces P a = 0 → numPieces P b = 0 :=
      List.pairwise_replicate.mpr (.inr id)
    constructor
    · exact fun h => ⟨fun e' he' => (List.mem_replicate.mp he').2 ▸ h (List.mem_replicate.mp he').1, hpair⟩
    · exact fun h hn => h.1 e (List.mem_replicate.mpr ⟨hn, rfl⟩)
  | struct packed es => rw [Leading, members, leadingMembers_iff]

/-- A type without pieces has none in what it holds. -/
theorem leading_of_numPieces {t : LType σ} : numPieces P t = 0 → Leading P t := by
  induction t using members_induction with
  | leaf s => exact fun _ => trivial
  | node t ht ih =>
    intro h
    have hnone (e : LType σ) (he : e ∈ t.members) : numPieces P e = 0 := by
      have := numPieces_le_of_mem P ht he
      omega
    exact (leading_iff P ht).mpr ⟨fun e he => ih e he (hnone e he),
      List.pairwise_of_forall_mem_list fun a _ b hb _ => hnone b hb⟩

end LType

/-! ### The stack of indices -/

namespace Visit

/-- The stack after a piece: what ends with it is popped, and the index on top goes up if a
leaf ends. -/
def after (v : Visit) : List ℕ :=
  let st := v.path.take (v.path.length - v.closes)
  if v.ends then bump st else st

@[simp] theorem length_after (v : Visit) : v.after.length = v.path.length - v.closes := by
  rw [after]
  split_ifs <;> simp

end Visit

/-- The stack along a walk: at each piece it holds the indices that lead there. -/
inductive Steps : List ℕ → List Visit → List ℕ → Prop
  | nil (st : List ℕ) : Steps st [] st
  | cons {v : Visit} {l : List Visit} {st st' : List ℕ} (hpath : v.path = st ++ List.replicate v.opens 0)
      (hcloses : v.closes ≤ v.path.length) (h : Steps v.after l st') : Steps st (v :: l) st'

namespace Steps

variable {st st' st'' : List ℕ} {l l' : List Visit}

theorem append (h : Steps st l st') (h' : Steps st' l' st'') : Steps st (l ++ l') st'' := by
  induction h with
  | nil => exact h'
  | cons hpath hcloses _ ih => exact .cons hpath hcloses (ih h')

theorem append_inv (h : Steps st (l ++ l') st'') : ∃ st', Steps st l st' ∧ Steps st' l' st'' := by
  induction l generalizing st with
  | nil => exact ⟨st, .nil st, h⟩
  | cons v l ih =>
    cases h with
    | cons hpath hcloses h =>
      obtain ⟨st', h1, h2⟩ := ih h
      exact ⟨st', .cons hpath hcloses h1, h2⟩

/-- One more array or struct begins with the first piece. -/
theorem addOpen {q : List ℕ} (hl : l ≠ []) (h : Steps (q ++ [0]) l st') :
    Steps q (l.modify 0 Visit.addOpen) st' := by
  cases h with
  | nil => exact absurd rfl hl
  | @cons v l _ _ hpath hcloses h =>
    refine .cons ?_ hcloses h
    change v.path = _
    rw [hpath, List.append_assoc]
    rfl

/-- One more array or struct ends with the last piece. -/
theorem addClose {q : List ℕ} {n : ℕ} (hl : l ≠ []) (hends : ∀ v, l.getLast? = some v → v.ends = true)
    (h : Steps st l (q ++ [n])) : Steps st (l.modify (l.length - 1) Visit.addClose) (bump q) := by
  obtain ⟨l, v, rfl⟩ : ∃ l' v, l = l' ++ [v] := ⟨_, _, (List.dropLast_append_getLast hl).symm⟩
  obtain ⟨st', h1, h2⟩ := h.append_inv
  rw [modify_concat]
  refine h1.append ?_
  cases h2 with
  | cons hpath hcloses h =>
    have hv : v.ends = true := hends v (by simp)
    have hafter : bump (v.path.take (v.path.length - v.closes)) = q ++ [n] := by
      have := h
      simp only [Visit.after, hv, if_true] at this
      generalize hb : bump (v.path.take (v.path.length - v.closes)) = b at this
      generalize hq : q ++ [n] = b' at this
      cases this
      rfl
    have hlen : v.path.length - v.closes = q.length + 1 := by
      have := congrArg List.length hafter
      simpa using this
    have hq : v.path.take q.length = q := by
      rw [hlen, ← List.take_append_getElem (by omega), bump_concat] at hafter
      exact (List.append_inj' hafter rfl).1
    have hafter' : v.addClose.after = bump q := by
      simp only [Visit.after, Visit.addClose, hv, if_true]
      rw [show v.path.length - (v.closes + 1) = q.length by omega, hq]
    refine .cons hpath ?_ (hafter' ▸ .nil _)
    change v.closes + 1 ≤ v.path.length
    omega

end Steps

namespace LType

variable {σ κ : Type} {T : Table σ} (P : Pieces T κ)

theorem map_under_wrap (q : List ℕ) (l : List Visit) :
    (wrap l).map (Visit.under q) = wrap (l.map (Visit.under q)) := by
  have hopen (l : List Visit) (i : ℕ) :
      (l.modify i Visit.addOpen).map (Visit.under q) = (l.map (Visit.under q)).modify i Visit.addOpen :=
    map_modify (g := Visit.under q) Visit.addOpen (fun _ => rfl) l i
  have hclose (l : List Visit) (i : ℕ) :
      (l.modify i Visit.addClose).map (Visit.under q) = (l.map (Visit.under q)).modify i Visit.addClose :=
    map_modify (g := Visit.under q) Visit.addClose (fun _ => rfl) l i
  rw [wrap, wrap, List.length_map, hclose, hopen]

theorem map_under_walkAll_cons (q : List ℕ) (w : List Visit) (ws : List (List Visit)) (k : ℕ) :
    (walkAll (w :: ws) k).map (Visit.under q) =
      w.map (Visit.under (q ++ [k])) ++ (walkAll ws (k + 1)).map (Visit.under q) := by
  rw [walkAll, List.map_append, List.map_map]
  congr 1
  refine List.map_congr_left fun v _ => ?_
  simp [Visit.under]

/-- Members without pieces are not seen. -/
theorem walkAll_eq_nil {ws : List (List Visit)} (h : ∀ w ∈ ws, w = []) (k : ℕ) : walkAll ws k = [] := by
  induction ws generalizing k with
  | nil => rfl
  | cons w ws ih =>
    obtain ⟨rfl, hws⟩ := List.forall_mem_cons.mp h
    exact ih hws (k + 1)

/-- The stack goes from the first member to past the last one with pieces. -/
theorem steps_walkAll (ws : List (List Visit)) (hws : ws.Pairwise fun w w' => w = [] → w' = [])
    (h : ∀ w ∈ ws, w ≠ [] → ∀ q, Steps q (w.map (Visit.under q)) (bump q)) (q : List ℕ) :
    ∀ k, ∃ n, Steps (q ++ [k]) ((walkAll ws k).map (Visit.under q)) (q ++ [n]) := by
  induction ws with
  | nil => exact fun k => ⟨k, .nil _⟩
  | cons w ws ih =>
    intro k
    obtain ⟨hnone, hws⟩ := List.pairwise_cons.mp hws
    by_cases hw : w = []
    · subst hw
      refine ⟨k, ?_⟩
      rw [walkAll, walkAll_eq_nil fun w hw => hnone w hw rfl]
      exact .nil _
    · obtain ⟨n, hn⟩ := ih hws (fun w hw => h w (List.mem_cons_of_mem _ hw)) (k + 1)
      have hstep := h w List.mem_cons_self hw (q ++ [k])
      rw [bump_concat] at hstep
      rw [map_under_walkAll_cons]
      exact ⟨n, hstep.append hn⟩

/-- Something is full only if it has pieces. -/
theorem walk_ne_nil {t : LType σ} : Full P t → walk P t ≠ [] := by
  induction t using members_induction with
  | leaf s =>
    intro h
    have h : 0 < (P.kinds s).length := h
    rw [walk, ne_eq, List.map_eq_nil_iff, List.range_eq_nil]
    omega
  | node t ht ih =>
    intro h
    obtain ⟨hne, hfull⟩ := (full_iff P ht).mp h
    obtain ⟨e, es, hes⟩ := List.exists_cons_of_ne_nil hne
    have hmem : e ∈ t.members := by simp [hes]
    have hw := ih e hmem (hfull e hmem)
    intro hnil
    have hlen := congrArg List.length hnil
    rw [walk_eq P ht, length_wrap, hes, List.map_cons, walkAll, List.length_append, List.length_map] at hlen
    have := List.length_pos_iff.mpr hw
    rw [List.length_nil] at hlen
    omega

theorem Full.leading {t : LType σ} : Full P t → Leading P t := by
  induction t using members_induction with
  | leaf s => exact fun _ => trivial
  | node t ht ih =>
    intro h
    obtain ⟨-, hfull⟩ := (full_iff P ht).mp h
    refine (leading_iff P ht).mpr ⟨fun e he => ih e he (hfull e he),
      List.pairwise_of_forall_mem_list fun a ha b _ hnone => ?_⟩
    exact absurd ((walk_eq_nil P).mpr hnone) (walk_ne_nil P (hfull a ha))

/-- A walk over members ends as that over one of them. -/
theorem getLast?_walkAll (ws : List (List Visit)) (k : ℕ) {v : Visit}
    (hv : (walkAll ws k).getLast? = some v) :
    ∃ w ∈ ws, ∃ j u, w.getLast? = some u ∧ v = u.under [j] := by
  induction ws generalizing k with
  | nil => cases hv
  | cons w ws ih =>
    rw [walkAll] at hv
    by_cases hnil : walkAll ws (k + 1) = []
    · rw [hnil, List.append_nil, List.getLast?_map] at hv
      obtain ⟨u, hu, rfl⟩ := Option.map_eq_some_iff.mp hv
      exact ⟨w, List.mem_cons_self, k, u, hu, rfl⟩
    · rw [List.getLast?_append_of_ne_nil _ hnil] at hv
      obtain ⟨x, hx, j, u, hu, hvu⟩ := ih (k + 1) hv
      exact ⟨x, List.mem_cons_of_mem _ hx, j, u, hu, hvu⟩

/-- The last piece of an array or struct. -/
theorem getLast?_wrap {l : List Visit} {v : Visit} (hv : (wrap l).getLast? = some v) :
    ∃ u, l.getLast? = some u ∧ v.path = u.path ∧ v.closes = u.closes + 1 ∧ v.ends = u.ends := by
  induction l using List.reverseRecOn with
  | nil => cases hv
  | append_singleton l u =>
    cases l with
    | nil =>
      obtain rfl := Option.some.inj hv
      exact ⟨u, rfl, rfl, rfl, rfl⟩
    | cons w l =>
      have hwrap : wrap (w :: l ++ [u]) = w.addOpen :: l ++ [u.addClose] := by
        have := modify_concat Visit.addClose (w.addOpen :: l) u
        simpa [wrap] using this
      rw [hwrap, List.getLast?_concat] at hv
      obtain rfl := Option.some.inj hv
      exact ⟨u, List.getLast?_concat, rfl, rfl, rfl⟩

/-- What begins with the first piece does not change where leaves end. -/
theorem map_ends_addOpen (l : List Visit) : (l.modify 0 Visit.addOpen).map Visit.ends = l.map Visit.ends := by
  cases l <;> rfl

/-- The last piece, by what is kept of the pieces. -/
theorem getLast?_of_map_eq {α β : Type} {f : α → β} {l l' : List α} (h : l.map f = l'.map f) {v : α}
    (hv : l.getLast? = some v) : ∃ u, l'.getLast? = some u ∧ f u = f v := by
  have := congrArg List.getLast? h
  rw [List.getLast?_map, List.getLast?_map, hv] at this
  exact Option.map_eq_some_iff.mp this.symm

/-- The pieces of one leaf leave the stack as it is, but for the last. -/
theorem steps_leaf (n m : ℕ) (hm : m < n) (q : List ℕ) :
    Steps q ((List.range m).map fun i => ⟨0, q, 0, i + 1 == n⟩) q := by
  induction m with
  | zero => exact .nil q
  | succ m ih =>
    rw [List.range_succ, List.map_append]
    refine (ih (by omega)).append (.cons (by simp) (Nat.zero_le _) ?_)
    have : (m + 1 == n) = false := by simpa using by omega
    simp only [Visit.after, this, Nat.sub_zero, List.take_length]
    exact .nil q

/-- The last piece of a type ends a leaf. -/
theorem ends_walk (t : LType σ) : ∀ v, (walk P t).getLast? = some v → v.ends = true := by
  induction t using members_induction with
  | leaf s =>
    intro v hv
    rw [walk, List.getLast?_map] at hv
    obtain ⟨i, hi, rfl⟩ := Option.map_eq_some_iff.mp hv
    rw [List.getLast?_range] at hi
    split at hi
    · cases hi
    · obtain rfl := Option.some.inj hi
      simpa using by omega
  | node t ht ih =>
    intro v hv
    rw [walk_eq P ht] at hv
    obtain ⟨u, hu, -, -, huv⟩ := getLast?_wrap hv
    obtain ⟨w, hw, j, x, hx, rfl⟩ := getLast?_walkAll _ 0 hu
    obtain ⟨e, he, rfl⟩ := List.mem_map.mp hw
    exact huv.trans (ih e he x hx)

/-- **The stack along the walk over a type.** -/
theorem steps_walk {t : LType σ} : Leading P t → walk P t ≠ [] → ∀ q,
    Steps q ((walk P t).map (Visit.under q)) (bump q) := by
  induction t using members_induction with
  | leaf s =>
    intro _ h q
    obtain ⟨n, hn⟩ : ∃ n, (P.kinds s).length = n + 1 := by
      refine ⟨(P.kinds s).length - 1, ?_⟩
      rw [walk, ne_eq, List.map_eq_nil_iff, List.range_eq_nil] at h
      omega
    rw [walk, hn, List.range_succ, List.map_append, List.map_append, List.map_map]
    have hl := steps_leaf (n + 1) n (Nat.lt_succ_self n) q
    have hlast : Steps q [Visit.under q ⟨0, [], 0, n + 1 == n + 1⟩] (bump q) := by
      refine .cons (by simp [Visit.under]) (Nat.zero_le _) ?_
      simpa [Visit.after, Visit.under] using Steps.nil (bump q)
    refine Steps.append ?_ hlast
    simpa [Function.comp_def, Visit.under] using hl
  | node t ht ih =>
    intro h hne q
    obtain ⟨hlead, hpair⟩ := (leading_iff P ht).mp h
    rw [walk_eq P ht] at hne ⊢
    rw [map_under_wrap]
    have hpair : (t.members.map (walk P)).Pairwise fun w w' => w = [] → w' = [] :=
      List.pairwise_map.mpr (hpair.imp fun hab => by rwa [walk_eq_nil, walk_eq_nil])
    obtain ⟨n, hsteps⟩ := steps_walkAll (t.members.map (walk P)) hpair (fun w hw => by
      obtain ⟨e, he, rfl⟩ := List.mem_map.mp hw
      exact ih e he (hlead e he)) q 0
    have hnil : (walkAll (t.members.map (walk P)) 0).map (Visit.under q) ≠ [] := by simpa [wrap] using hne
    have hopen := hsteps.addOpen hnil
    have hlast : ∀ v,
      (((walkAll (t.members.map (walk P)) 0).map (Visit.under q)).modify 0 Visit.addOpen).getLast? = some v →
        v.ends = true := by
      intro v hv
      obtain ⟨u, hu, huv⟩ := getLast?_of_map_eq (map_ends_addOpen _) hv
      rw [List.getLast?_map] at hu
      obtain ⟨x, hx, rfl⟩ := Option.map_eq_some_iff.mp hu
      obtain ⟨w, hw, j, y, hy, rfl⟩ := getLast?_walkAll _ 0 hx
      obtain ⟨e, he, rfl⟩ := List.mem_map.mp hw
      exact huv.symm.trans (ends_walk P e y hy)
    simpa [wrap] using hopen.addClose (by simpa using hnil) hlast

end LType

namespace Steps

variable {st st' : List ℕ} {l : List Visit}

/-- An index is at most the number of pieces before. -/
theorem path_le {n : ℕ} (h : Steps st l st') (hst : ∀ k ∈ st, k ≤ n) {i : ℕ} {v : Visit}
    (hv : l[i]? = some v) :
    ∀ k ∈ v.path, k ≤ n + i := by
  induction h generalizing n i with
  | nil => cases hv
  | @cons u l st _ hpath hcloses _ ih =>
    have hu : ∀ k ∈ u.path, k ≤ n := by
      intro k hk
      rw [hpath, List.mem_append] at hk
      rcases hk with hk | hk
      · exact hst k hk
      · rw [List.eq_of_mem_replicate hk]
        exact Nat.zero_le n
    cases i with
    | zero =>
      obtain rfl := Option.some.inj hv
      exact hu
    | succ i =>
      have hafter : ∀ k ∈ u.after, k ≤ n + 1 := by
        have htake : ∀ k ∈ u.path.take (u.path.length - u.closes), k ≤ n :=
          fun k hk => hu k (List.mem_of_mem_take hk)
        intro k hk
        rw [Visit.after] at hk
        generalize u.path.take (u.path.length - u.closes) = q at htake hk
        split_ifs at hk
        · induction q using List.reverseRecOn with
          | nil => cases hk
          | append_singleton q m =>
            rw [bump_concat, List.mem_append, List.mem_singleton] at hk
            rcases hk with hk | rfl
            · exact (htake k (by simp [hk])).trans (Nat.le_succ n)
            · exact Nat.succ_le_succ (htake m (by simp))
        · exact (htake k hk).trans (Nat.le_succ n)
      intro k hk
      have := ih hafter hv k hk
      omega

/-- What lies on the stack after a piece leads to the next. -/
theorem path_succ (h : Steps st l st') {i : ℕ} {u v : Visit} (hu : l[i]? = some u) (hv : l[i + 1]? = some v) :
    v.path = u.after ++ List.replicate v.opens 0 := by
  induction h generalizing i with
  | nil => cases hu
  | cons hpath hcloses h ih =>
    cases i with
    | zero =>
      obtain rfl := Option.some.inj hu
      cases h with
      | nil => cases hv
      | cons hpath' _ _ =>
        obtain rfl := Option.some.inj hv
        exact hpath'
    | succ i => exact ih hu hv

end Steps

/-! ### What is at the end of a path -/

/-- No piece lies below the path: each leaves it, and no sooner than the one before. -/
inductive Before (search : List ℕ) : ℕ → List Visit → Prop
  | nil (d : ℕ) : Before search d []
  | cons {v : Visit} {l : List Visit} {d d' x k : ℕ} {r : List ℕ} (hd : d ≤ d') (hx : search[d']? = some x)
      (hpath : v.path = search.take d' ++ k :: r) (hk : k ≠ x) (h : Before search d' l) :
        Before search d (v :: l)

namespace Before

variable {search : List ℕ} {l l' : List Visit} {d k : ℕ}

theorem mono {d' : ℕ} (hd : d' ≤ d) (h : Before search d l) : Before search d' l := by
  cases h with
  | nil => exact .nil d'
  | cons hd' hx hpath hk h => exact .cons (hd.trans hd') hx hpath hk h

theorem under (h : Before search d l) : Before (k :: search) (d + 1) (l.map (Visit.under [k])) := by
  induction h with
  | nil d => exact .nil (d + 1)
  | cons hd hx hpath hk _ ih =>
    exact .cons (Nat.succ_le_succ hd) (by simpa using hx) (congrArg (k :: ·) hpath) hk ih

/-- Pieces of other members come first. -/
theorem of_heads (hl : ∀ v ∈ l, ∃ j r, v.path = j :: r ∧ j ≠ k) (h : Before (k :: search) 0 l') :
    Before (k :: search) 0 (l ++ l') := by
  induction l with
  | nil => exact h
  | cons v l ih =>
    obtain ⟨j, r, hpath, hj⟩ := hl v List.mem_cons_self
    exact .cons (le_refl 0) rfl hpath hj (ih fun v hv => hl v (List.mem_cons_of_mem _ hv))

theorem addOpen (h : Before search d l) : Before search d (l.modify 0 Visit.addOpen) := by
  cases h with
  | nil => exact .nil d
  | cons hd hx hpath hk h => exact .cons hd hx hpath hk h

end Before

namespace Visit

/-- After the piece, the first `n` indices are still those of the stack. -/
def Stays (n : ℕ) (v : Visit) : Prop := (v.ends = false ∧ v.closes = 0) ∨ v.closes + n < v.path.length

/-- After the piece, they are not. -/
def Leaves (n : ℕ) (v : Visit) : Prop := v.ends = true ∧ v.path.length ≤ v.closes + n

end Visit

/-- The pieces of what is at the end of a path: only the last of them leaves it. -/
structure Target (search : List ℕ) (l : List Visit) (v : Visit) : Prop where
  isPrefix : ∀ u ∈ l ++ [v], search <+: u.path
  stays : ∀ u ∈ l, u.Stays search.length
  leaves : v.Leaves search.length

namespace Target

variable {search : List ℕ} {l : List Visit} {v : Visit}

theorem under {k : ℕ} (h : Target search l v) :
    Target (k :: search) (l.map (Visit.under [k])) (v.under [k]) where
  isPrefix u hu := by
    rw [← List.map_singleton, ← List.map_append] at hu
    obtain ⟨w, hw, rfl⟩ := List.mem_map.mp hu
    exact (List.prefix_cons_inj k).mpr (h.isPrefix w hw)
  stays u hu := by
    obtain ⟨w, hw, rfl⟩ := List.mem_map.mp hu
    refine (h.stays w hw).imp id fun h => ?_
    change w.closes + (search.length + 1) < w.path.length + 1
    omega
  leaves := by
    refine ⟨h.leaves.1, ?_⟩
    have := h.leaves.2
    change v.path.length + 1 ≤ v.closes + (search.length + 1)
    omega

theorem addClose (h : Target search l v) : Target search l v.addClose where
  isPrefix u hu := by
    rcases List.mem_append.mp hu with hu | hu
    · exact h.isPrefix u (List.mem_append_left _ hu)
    · rw [List.mem_singleton.mp hu]
      exact h.isPrefix v (by simp)
  stays := h.stays
  leaves := ⟨h.leaves.1, by
    have := h.leaves.2
    change v.path.length ≤ v.closes + 1 + search.length
    omega⟩

theorem addOpen_last (h : Target search [] v) : Target search [] v.addOpen :=
  ⟨fun u hu => by
    obtain rfl := List.mem_singleton.mp hu
    exact h.isPrefix v List.mem_cons_self, by simp, h.leaves⟩

theorem addOpen (h : Target search l v) : Target search (l.modify 0 Visit.addOpen) v where
  isPrefix u hu := by
    cases l with
    | nil => exact h.isPrefix u hu
    | cons w l =>
      rcases List.mem_cons.mp hu with rfl | hu
      · exact h.isPrefix w List.mem_cons_self
      · exact h.isPrefix u (List.mem_cons_of_mem _ hu)
  stays u hu := by
    cases l with
    | nil => cases hu
    | cons w l =>
      rcases List.mem_cons.mp hu with rfl | hu
      · exact h.stays w List.mem_cons_self
      · exact h.stays u (List.mem_cons_of_mem _ hu)
  leaves := h.leaves

end Target

/-- A walk in three parts: before what is at the end of a path, `n` pieces of it, and the rest. -/
def Splits (search : List ℕ) (l : List Visit) (before n : ℕ) : Prop :=
  ∃ B I v A, l = B ++ (I ++ v :: A) ∧ B.length = before ∧ I.length + 1 = n ∧ Before search 0 B ∧
    Target search I v

namespace Splits

variable {search : List ℕ} {l : List Visit} {before n : ℕ}

theorem addOpen (h : Splits search l before n) : Splits search (l.modify 0 Visit.addOpen) before n := by
  obtain ⟨B, I, v, A, rfl, hB, hn, hbefore, htarget⟩ := h
  cases B with
  | cons b B => exact ⟨b.addOpen :: B, I, v, A, rfl, hB, hn, hbefore.addOpen, htarget⟩
  | nil =>
    cases I with
    | cons u I => exact ⟨[], u.addOpen :: I, v, A, rfl, hB, hn, .nil 0, htarget.addOpen⟩
    | nil => exact ⟨[], [], v.addOpen, A, rfl, hB, hn, .nil 0, htarget.addOpen_last⟩

theorem addClose (h : Splits search l before n) :
    Splits search (l.modify (l.length - 1) Visit.addClose) before n := by
  obtain ⟨B, I, v, A, rfl, hB, hn, hbefore, htarget⟩ := h
  induction A using List.reverseRecOn with
  | nil =>
    refine ⟨B, I, v.addClose, [], ?_, hB, hn, hbefore, htarget.addClose⟩
    rw [← List.append_assoc, modify_concat, List.append_assoc]
  | append_singleton A a =>
    refine ⟨B, I, v, A ++ [a.addClose], ?_, hB, hn, hbefore, htarget⟩
    have := modify_concat Visit.addClose (B ++ (I ++ v :: A)) a
    simpa using this

theorem wrap (h : Splits search l before n) : Splits search (wrap l) before n := by
  have := h.addOpen.addClose
  rwa [List.length_modify] at this

end Splits

namespace LType

variable {σ κ : Type} {T : Table σ} (P : Pieces T κ)

/-- The walks over the members, at the `k`-th of them. -/
theorem walkAll_split (ws : List (List Visit)) (j : ℕ) {k : ℕ} {w : List Visit} (hw : ws[k]? = some w) :
    walkAll ws j = walkAll (ws.take k) j ++
      (w.map (Visit.under [j + k]) ++ walkAll (ws.drop (k + 1)) (j + (k + 1))) := by
  induction ws generalizing j k with
  | nil => cases hw
  | cons w' ws ih =>
    cases k with
    | zero =>
      obtain rfl := Option.some.inj hw
      rfl
    | succ k =>
      rw [walkAll, ih (j + 1) hw, List.take_succ_cons, walkAll, List.append_assoc, List.drop_succ_cons]
      rw [show j + 1 + k = j + (k + 1) by omega, show j + 1 + (k + 1) = j + (k + 1 + 1) by omega]

theorem heads_walkAll (ws : List (List Visit)) (j : ℕ) : ∀ v ∈ walkAll ws j, ∃ i r, v.path = i :: r ∧
    i < j + ws.length := by
  induction ws generalizing j with
  | nil => intro v hv; cases hv
  | cons w ws ih =>
    intro v hv
    rcases List.mem_append.mp hv with hv | hv
    · obtain ⟨u, -, rfl⟩ := List.mem_map.mp hv
      exact ⟨j, u.path, rfl, by simp⟩
    · obtain ⟨i, r, hpath, hi⟩ := ih (j + 1) v hv
      exact ⟨i, r, hpath, by rw [List.length_cons]; omega⟩

/-- Members whose last pieces close all there is. -/
theorem target_walkAll (ws : List (List Visit)) (hne : ws ≠ [])
    (hws : ∀ w ∈ ws, ∃ I v, w = I ++ [v] ∧ (∀ u ∈ I, u.Stays 0) ∧ v.ends = true ∧
      v.closes = v.path.length) (k : ℕ) :
    ∃ I v, walkAll ws k = I ++ [v] ∧ (∀ u ∈ I, u.Stays 0) ∧ v.ends = true ∧ v.closes + 1 = v.path.length := by
  have hunder (u : Visit) (j : ℕ) (hu : u.Stays 0) : (u.under [j]).Stays 0 := by
    refine hu.imp id fun h => ?_
    change u.closes + 0 < u.path.length + 1
    omega
  induction ws generalizing k with
  | nil => exact absurd rfl hne
  | cons w ws ih =>
    obtain ⟨I, v, rfl, hI, hends, hcloses⟩ := hws w List.mem_cons_self
    have hI' : ∀ u ∈ I.map (Visit.under [k]), u.Stays 0 := by
      intro u hu
      obtain ⟨x, hx, rfl⟩ := List.mem_map.mp hu
      exact hunder x k (hI x hx)
    by_cases hnil : ws = []
    · subst hnil
      refine ⟨I.map (Visit.under [k]), v.under [k], by simp [walkAll], hI', hends, ?_⟩
      change v.closes + 1 = v.path.length + 1
      omega
    · obtain ⟨I', v', hwalk, hI'', hends', hcloses'⟩ :=
        ih hnil (fun w hw => hws w (List.mem_cons_of_mem _ hw)) (k + 1)
      refine ⟨(I ++ [v]).map (Visit.under [k]) ++ I', v', by rw [walkAll, hwalk, List.append_assoc], ?_,
        hends', hcloses'⟩
      intro u hu
      rw [List.map_append, List.mem_append, List.mem_append] at hu
      rcases hu with (hu | hu) | hu
      · exact hI' u hu
      · obtain rfl := List.mem_singleton.mp hu
        refine .inr ?_
        change v.closes + 0 < v.path.length + 1
        omega
      · exact hI'' u hu

/-- Only the last piece of a type closes all there is. -/
theorem target_walk {t : LType σ} : Full P t →
    ∃ I v, walk P t = I ++ [v] ∧ (∀ u ∈ I, u.Stays 0) ∧ v.ends = true ∧ v.closes = v.path.length := by
  induction t using members_induction with
  | leaf s =>
    intro h
    obtain ⟨n, hn⟩ : ∃ n, (P.kinds s).length = n + 1 :=
      ⟨(P.kinds s).length - 1, by have : 0 < (P.kinds s).length := h; omega⟩
    rw [walk, hn, List.range_succ, List.map_append]
    refine ⟨_, _, rfl, fun u hu => ?_, by simp, rfl⟩
    obtain ⟨i, hi, rfl⟩ := List.mem_map.mp hu
    refine .inl ⟨?_, rfl⟩
    rw [List.mem_range] at hi
    simpa using by omega
  | node t ht ih =>
    intro h
    obtain ⟨hne, hfull⟩ := (full_iff P ht).mp h
    obtain ⟨I, v, hwalk, hI, hends, hcloses⟩ :=
      target_walkAll (t.members.map (walk P)) (by simpa using hne) (fun w hw => by
      obtain ⟨e, he, rfl⟩ := List.mem_map.mp hw
      exact ih e he (hfull e he)) 0
    rw [walk_eq P ht, hwalk]
    have hstays : ∀ u ∈ I.modify 0 Visit.addOpen, u.Stays 0 := by
      intro u hu
      cases I with
      | nil => cases hu
      | cons w I =>
        rcases List.mem_cons.mp hu with rfl | hu
        · exact hI w List.mem_cons_self
        · exact hI u (List.mem_cons_of_mem _ hu)
    cases I with
    | nil => exact ⟨[], v.addOpen.addClose, rfl, by simp, hends, hcloses⟩
    | cons w I =>
      refine ⟨w.addOpen :: I, v.addClose, ?_, hstays, hends, hcloses⟩
      have := modify_concat Visit.addClose (w.addOpen :: I) v
      simpa [wrap] using this

/-- **What is at the end of a path is a run of pieces**: those before it lie at smaller indices,
and only the last of it leaves the path. -/
theorem walk_split (search : List ℕ) {t e : LType σ} (ht : Full P t) (he : sub t search = some e) :
    Splits search (walk P t) (countBefore (numPieces P) t search) (numPieces P e) := by
  induction search generalizing t with
  | nil =>
    obtain rfl := Option.some.inj he
    obtain ⟨I, v, hwalk, hI, hends, hcloses⟩ := target_walk P ht
    refine ⟨[], I, v, [], by rw [hwalk]; rfl, rfl, ?_, .nil 0, fun u _ => List.nil_prefix, hI, hends, ?_⟩
    · rw [← length_walk, hwalk, List.length_append, List.length_singleton]
    · exact (Nat.le_of_eq hcloses.symm)
  | cons k search ih =>
    rw [sub] at he
    cases hk : t.members[k]? with
    | none => simp [hk] at he
    | some m =>
      have hleaf : ∀ s, t ≠ leaf s := by
        rintro s rfl
        simp [members] at hk
      simp only [hk] at he
      have hm := List.mem_of_getElem? hk
      obtain ⟨B, I, v, A, hwalk, hB, hI, hbefore, htarget⟩ := ih (((full_iff P hleaf).mp ht).2 m hm) he
      have hw : (t.members.map (walk P))[k]? = some (walk P m) := by simp [hk]
      rw [walk_eq P hleaf, walkAll_split _ 0 hw]
      refine Splits.wrap ⟨walkAll ((t.members.map (walk P)).take k) 0 ++ B.map (Visit.under [k]),
        I.map (Visit.under [k]),
        v.under [k],
          A.map (Visit.under [k]) ++ walkAll ((t.members.map (walk P)).drop (k + 1)) (0 + (k + 1)), ?_,
          ?_, ?_, ?_,
        htarget.under⟩
      · simp [hwalk]
      · rw [List.length_append, length_walkAll, List.length_map, hB, countBefore, hk, ← List.map_take,
          List.map_map]
        congr 2
        exact List.map_congr_left fun e _ => length_walk P e
      · rw [List.length_map, hI]
      · refine Before.of_heads (fun v hv => ?_) (hbefore.under.mono (Nat.zero_le _))
        obtain ⟨i, r, hpath, hi⟩ := heads_walkAll _ _ v hv
        refine ⟨i, r, hpath, ?_⟩
        have := List.length_take_le k (t.members.map (walk P))
        omega

/-- The stack along the whole walk. -/
theorem steps_nil_walk {t : LType σ} (ht : Leading P t) : Steps [] (walk P t) [] := by
  by_cases hne : walk P t = []
  · rw [hne]
    exact .nil []
  · have hsteps := steps_walk P ht hne []
    have hid : (walk P t).map (Visit.under []) = walk P t :=
      (List.map_congr_left fun v _ => rfl).trans (List.map_id _)
    rwa [hid, bump_nil] at hsteps

/-! ### From a piece to its paths -/

theorem getElem?_wrap {l : List Visit} {i : ℕ} {v : Visit} (hv : (wrap l)[i]? = some v) :
    ∃ u, l[i]? = some u ∧ v.path = u.path := by
  rw [wrap, List.getElem?_modify, List.getElem?_modify] at hv
  obtain ⟨w, hw, rfl⟩ := Option.map_eq_some_iff.mp hv
  obtain ⟨u, hu, rfl⟩ := Option.map_eq_some_iff.mp hw
  refine ⟨u, hu, ?_⟩
  split_ifs <;> rfl

/-- A piece of the members is one of a member. -/
theorem getElem?_walkAll (ws : List (List Visit)) (k : ℕ) {i : ℕ} {v : Visit}
    (hv : (walkAll ws k)[i]? = some v) :
    ∃ j w u i', ws[j]? = some w ∧ w[i']? = some u ∧ v = u.under [k + j] ∧
      i = ((ws.take j).map List.length).sum + i' := by
  induction ws generalizing k i with
  | nil => cases hv
  | cons w ws ih =>
    rw [walkAll] at hv
    by_cases hi : i < w.length
    · rw [List.getElem?_append_left (by simpa using hi), List.getElem?_map] at hv
      obtain ⟨u, hu, rfl⟩ := Option.map_eq_some_iff.mp hv
      exact ⟨0, w, u, i, rfl, hu, rfl, by simp⟩
    · rw [List.getElem?_append_right (by simpa using hi), List.length_map] at hv
      obtain ⟨j, w', u, i', hw', hu, rfl, hi'⟩ := ih (k + 1) hv
      refine ⟨j + 1, w', u, i', hw', hu, by rw [show k + 1 + j = k + (j + 1) by omega], ?_⟩
      rw [List.take_succ_cons, List.map_cons, List.sum_cons]
      omega

/-- **A piece lies within everything on its path.** -/
theorem sub_of_walk {t : LType σ} {i : ℕ} {v : Visit} (hv : (walk P t)[i]? = some v) {j : ℕ}
    (hj : j ≤ v.path.length) :
    ∃ e, sub t (v.path.take j) = some e ∧ countBefore (numPieces P) t (v.path.take j) ≤ i ∧
      i < countBefore (numPieces P) t (v.path.take j) + numPieces P e := by
  induction t using members_induction generalizing i v j with
  | leaf s =>
    have hi := (List.getElem?_eq_some_iff.mp hv).1
    rw [length_walk] at hi
    have hpath : v.path = [] := by
      rw [walk, List.getElem?_map] at hv
      obtain ⟨n, -, rfl⟩ := Option.map_eq_some_iff.mp hv
      rfl
    rw [hpath, List.take_nil]
    exact ⟨leaf s, rfl, Nat.zero_le i, by simpa [countBefore] using hi⟩
  | node t ht ih =>
    cases j with
    | zero =>
      have hi := (List.getElem?_eq_some_iff.mp hv).1
      rw [length_walk] at hi
      exact ⟨t, rfl, Nat.zero_le i, by simpa [countBefore] using hi⟩
    | succ j =>
      rw [walk_eq P ht] at hv
      obtain ⟨u, hu, hpath⟩ := getElem?_wrap hv
      obtain ⟨k, w, u, i', hw, hu, rfl, hi⟩ := getElem?_walkAll _ _ hu
      rw [List.getElem?_map] at hw
      obtain ⟨m, hm, rfl⟩ := Option.map_eq_some_iff.mp hw
      have hpath : v.path = k :: u.path := by rw [hpath, Nat.zero_add]; rfl
      rw [hpath] at hj ⊢
      obtain ⟨e, he, hle, hlt⟩ := ih m (List.mem_of_getElem? hm) hu (j := j) (by simpa using hj)
      have hsum : ((List.take k (t.members.map (walk P))).map List.length).sum =
        ((t.members.take k).map (numPieces P)).sum := by
        rw [← List.map_take, List.map_map]
        exact congrArg List.sum (List.map_congr_left fun e _ => length_walk P e)
      rw [List.take_succ_cons]
      refine ⟨e, by rw [sub, hm]; exact he, ?_, ?_⟩
      · rw [countBefore, hm]
        dsimp only
        omega
      · rw [countBefore, hm]
        dsimp only
        omega

end LType

end TypeLayout
