import Tpde.Library.Ranges

/-!
# The layout of nested types

Types built from leaves by arrays and by structs, packed or not, and their layout in
memory: each leaf has a size and an alignment, a member starts at the next multiple of
its alignment, and a struct ends at a multiple of the largest one.

The same layout can be written as a list of pieces with the padding after each
(`pieces`): the sizes and paddings of the pieces before a piece add up to its place, and
those of all pieces to the size (`pieces_spec`).
-/

namespace TypeLayout

open Ranges

section
variable {α β : Type} (f : α → α)

theorem modify_append (l l' : List α) (i : ℕ) : (l ++ l').modify (l.length + i) f = l ++ l'.modify i f :=
  List.modifyTailIdx_add ..

theorem modify_append_left (l l' : List α) (i : ℕ) (hi : i < l.length) :
    (l ++ l').modify i f = l.modify i f ++ l' := by
  induction l generalizing i with
  | nil => cases hi
  | cons a l ih =>
    cases i with
    | zero => rfl
    | succ i => simp [ih i (by simpa using hi)]

theorem map_modify {g : α → β} {h : β → β} (hg : ∀ a, g (f a) = h (g a)) (l : List α) (i : ℕ) :
    (l.modify i f).map g = (l.map g).modify i h := by
  induction l generalizing i with
  | nil => simp
  | cons a l ih => cases i <;> simp [hg, ih]

/-- The last element is changed. -/
theorem modify_concat (l : List α) (a : α) : (l ++ [a]).modify ((l ++ [a]).length - 1) f = l ++ [f a] := by
  rw [List.length_append, List.length_singleton]
  exact modify_append f l [a] 0

end

/-- A type built from leaves. -/
inductive LType (σ : Type) where
  | leaf (s : σ)
  | array (n : ℕ) (elem : LType σ)
  | struct (packed : Bool) (elems : List (LType σ))

/-- The sizes and alignments of the leaves. -/
structure Table (σ : Type) where
  size : σ → ℕ
  align : σ → ℕ
  align_pos : ∀ s, 0 < align s
  align_dvd : ∀ s, align s ∣ size s

namespace LType

variable {σ : Type}

/-- Proves something of every type and every list of members. -/
theorem induction_on {p : LType σ → Prop} {q : List (LType σ) → Prop} (leaf : ∀ s, p (.leaf s))
    (array : ∀ n e, p e → p (.array n e)) (struct : ∀ packed es, q es → p (.struct packed es)) (nil : q [])
    (cons : ∀ e es, p e → q es → q (e :: es)) (t : LType σ) : p t :=
  LType.rec (motive_1 := p) (motive_2 := q) leaf array struct nil cons t

section
variable (T : Table σ)

mutual
/-- The alignment of a type. -/
def abiAlign : LType σ → ℕ
  | leaf s => T.align s
  | array _ e => abiAlign e
  | struct packed es => if packed then 1 else maxAlign es
/-- The largest alignment of the members. -/
def maxAlign : List (LType σ) → ℕ
  | [] => 1
  | e :: es => max (abiAlign e) (maxAlign es)
end

/-- The alignment of a member. -/
def memberAlign (packed : Bool) (e : LType σ) : ℕ := if packed then 1 else e.abiAlign T

mutual
/-- The size of a type, with its padding at the end. -/
def allocSize : LType σ → ℕ
  | leaf s => T.size s
  | array n e => n * allocSize e
  | struct packed es => alignUp (structEnd packed es 0) (if packed then 1 else maxAlign T es)
/-- Where the members end that are laid out from `o` on. -/
def structEnd (packed : Bool) : List (LType σ) → ℕ → ℕ
  | [], o => o
  | e :: es, o => structEnd packed es (alignUp o (memberAlign T packed e) + allocSize e)
end

mutual
/-- The leaves of a type at `base`, with their places. -/
def leaves : LType σ → ℕ → List (ℕ × σ)
  | leaf s, base => [(base, s)]
  | array n e, base => (List.range n).flatMap fun i => leaves e (base + i * allocSize T e)
  | struct packed es, base => structLeaves packed es base 0
/-- The leaves of the members that are laid out from `o` on. -/
def structLeaves (packed : Bool) : List (LType σ) → ℕ → ℕ → List (ℕ × σ)
  | [], _, _ => []
  | e :: es, base, o =>
    let o' := alignUp o (memberAlign T packed e)
    leaves e (base + o') ++ structLeaves packed es base (o' + allocSize T e)
end

end

variable {T : Table σ}

theorem maxAlign_pos (es : List (LType σ)) : 0 < maxAlign T es := by
  cases es with
  | nil => exact one_pos
  | cons e es =>
    induction es generalizing e with
    | nil => simp [maxAlign]
    | cons e' es ih => exact lt_of_lt_of_le (ih e') (le_max_right ..)

theorem abiAlign_pos (t : LType σ) : 0 < t.abiAlign T := by
  induction t using induction_on (q := fun _ => True) with
  | leaf s => exact T.align_pos s
  | array n e ih => exact ih
  | struct packed es =>
    rw [abiAlign]
    split_ifs
    · exact one_pos
    · exact maxAlign_pos es
  | nil => trivial
  | cons => trivial

theorem memberAlign_pos (packed : Bool) (e : LType σ) : 0 < memberAlign T packed e := by
  unfold memberAlign
  split_ifs
  · exact one_pos
  · exact e.abiAlign_pos

/-- A size is a multiple of the alignment. -/
theorem abiAlign_dvd (t : LType σ) : t.abiAlign T ∣ t.allocSize T := by
  induction t using induction_on (q := fun _ => True) with
  | leaf s => exact T.align_dvd s
  | array n e ih => exact Dvd.dvd.mul_left ih n
  | struct packed es =>
    rw [abiAlign, allocSize]
    exact dvd_alignUp ..
  | nil => trivial
  | cons => trivial

section
variable (p : σ → Prop)

mutual
/-- Every leaf of a type satisfies a property, also those of empty arrays. -/
def All : LType σ → Prop
  | leaf s => p s
  | array _ e => All e
  | struct _ es => AllMembers es
def AllMembers : List (LType σ) → Prop
  | [] => True
  | e :: es => All e ∧ AllMembers es
end

end

theorem All.mono {p q : σ → Prop} (hpq : ∀ s, p s → q s) (t : LType σ) : t.All p → t.All q := by
  induction t using induction_on (q := fun es => AllMembers p es → AllMembers q es) with
  | leaf s => exact hpq s
  | array n e ih => exact ih
  | struct packed es ih => exact ih
  | nil => trivial
  | cons e es ih ihs h => exact ⟨ih h.1, ihs h.2⟩

mutual
/-- The type mentions a leaf, if only in an empty array. -/
def hasLeaf : LType σ → Bool
  | leaf _ => true
  | array _ e => hasLeaf e
  | struct _ es => membersHaveLeaf es
def membersHaveLeaf : List (LType σ) → Bool
  | [] => false
  | e :: es => hasLeaf e || membersHaveLeaf es
end

/-- Two tables that agree on the leaves of a type lay it out in the same way. -/
theorem layout_congr {T T' : Table σ} (t : LType σ) :
    (t.All fun s => T.size s = T'.size s ∧ T.align s = T'.align s) →
    t.abiAlign T = t.abiAlign T' ∧ t.allocSize T = t.allocSize T' ∧ t.leaves T = t.leaves T' := by
  induction t using induction_on
    (q := fun es => (AllMembers (fun s => T.size s = T'.size s ∧ T.align s = T'.align s) es) →
      maxAlign T es = maxAlign T' es ∧ ∀ packed, structEnd T packed es = structEnd T' packed es ∧
        structLeaves T packed es = structLeaves T' packed es) with
  | leaf s =>
    rintro ⟨hsize, halign⟩
    exact ⟨halign, hsize, rfl⟩
  | array n e ih =>
    intro h
    obtain ⟨halign, hsize, hleaves⟩ := ih h
    refine ⟨halign, by rw [allocSize, allocSize, hsize], ?_⟩
    funext base
    rw [leaves, leaves, hsize, hleaves]
  | struct packed es ih =>
    intro h
    obtain ⟨halign, hrest⟩ := ih h
    refine ⟨by rw [abiAlign, abiAlign, halign], by rw [allocSize, allocSize, (hrest packed).1, halign], ?_⟩
    funext base
    rw [leaves, leaves, (hrest packed).2]
  | nil => exact ⟨rfl, fun _ => ⟨rfl, rfl⟩⟩
  | cons e es ih ihs h =>
    obtain ⟨he, hes⟩ := h
    obtain ⟨halign, hsize, hleaves⟩ := ih he
    obtain ⟨haligns, hrest⟩ := ihs hes
    have hmember (packed : Bool) : memberAlign T packed e = memberAlign T' packed e := by
      rw [memberAlign, memberAlign, halign]
    refine ⟨by rw [maxAlign, maxAlign, halign, haligns], fun packed => ⟨?_, ?_⟩⟩
    · funext o
      rw [structEnd, structEnd, hmember, hsize, (hrest packed).1]
    · funext base o
      rw [structLeaves, structLeaves, hmember, hleaves, hsize, (hrest packed).2]

end LType

/-! ### Pieces -/

section
variable {κ : Type}

/-- The pieces at their places: each starts after the sizes and paddings before it. -/
def offsets (size : κ → ℕ) : ℕ → List (κ × ℕ) → List (ℕ × κ)
  | _, [] => []
  | o, (k, pad) :: l => (o, k) :: offsets size (o + (size k + pad)) l

/-- All sizes and paddings. -/
def total (size : κ → ℕ) (l : List (κ × ℕ)) : ℕ := (l.map fun p => size p.1 + p.2).sum

/-- The paddings behind pieces at given places. -/
def gaps (size : κ → ℕ) : List (ℕ × κ) → ℕ → List ℕ
  | [], _ => []
  | [(o, k)], stop => [stop - (o + size k)]
  | (o, k) :: (o', k') :: l, stop => (o' - (o + size k)) :: gaps size ((o', k') :: l) stop

/-- More padding after the last piece. -/
def padLast (d : ℕ) (l : List (κ × ℕ)) : List (κ × ℕ) := l.modify (l.length - 1) fun p => (p.1, p.2 + d)

variable (size : κ → ℕ)

@[simp] theorem total_nil : total size [] = 0 := rfl

@[simp] theorem total_cons (p : κ × ℕ) (l : List (κ × ℕ)) :
    total size (p :: l) = size p.1 + p.2 + total size l := by simp [total]

@[simp] theorem total_append (l l' : List (κ × ℕ)) :
    total size (l ++ l') = total size l + total size l' := by simp [total]

theorem offsets_append (o : ℕ) (l l' : List (κ × ℕ)) :
    offsets size o (l ++ l') = offsets size o l ++ offsets size (o + total size l) l' := by
  induction l generalizing o with
  | nil => simp [offsets]
  | cons p l ih =>
    simp only [List.cons_append, offsets, ih, total_cons]
    rw [add_assoc]

theorem padLast_append (d : ℕ) (l : List (κ × ℕ)) (k : κ) (p : ℕ) :
    padLast d (l ++ [(k, p)]) = l ++ [(k, p + d)] := by
  simp [padLast, List.modify_eq_take_drop]

theorem padLast_nil (d : ℕ) : padLast d ([] : List (κ × ℕ)) = [] := rfl

theorem padLast_zero (l : List (κ × ℕ)) : padLast 0 l = l := List.modify_id ..

theorem length_padLast (d : ℕ) (l : List (κ × ℕ)) : (padLast d l).length = l.length := List.length_modify ..

theorem total_padLast {d : ℕ} {l : List (κ × ℕ)} (h : l = [] → d = 0) :
    total size (padLast d l) = total size l + d := by
  cases l using List.reverseRecOn with
  | nil => simp [padLast_nil, h rfl]
  | append_singleton l x =>
    obtain ⟨k, p⟩ := x
    rw [padLast_append, total_append, total_append]
    simp
    omega

/-- Padding up to an alignment. -/
theorem total_padLast_alignUp {o a : ℕ} {l : List (κ × ℕ)} (h : total size l = o) (ha : 0 < a) :
    total size (padLast (alignUp o a - o) l) = alignUp o a := by
  have hle := le_alignUp o ha
  rw [total_padLast, h]
  · omega
  · rintro rfl
    simp only [total_nil] at h
    simp [← h]

theorem offsets_padLast (d o : ℕ) (l : List (κ × ℕ)) : offsets size o (padLast d l) = offsets size o l := by
  cases l using List.reverseRecOn with
  | nil => rfl
  | append_singleton l x =>
    obtain ⟨k, p⟩ := x
    rw [padLast_append, offsets_append, offsets_append]
    rfl

@[simp] theorem length_offsets (o : ℕ) (l : List (κ × ℕ)) : (offsets size o l).length = l.length := by
  induction l generalizing o with
  | nil => rfl
  | cons p l ih => simp [offsets, ih]

theorem snd_offsets (o : ℕ) (l : List (κ × ℕ)) : (offsets size o l).map (·.2) = l.map (·.1) := by
  induction l generalizing o with
  | nil => rfl
  | cons p l ih => simp [offsets, ih]

/-- Pieces lie one behind the other. -/
theorem offsets_ordered (o : ℕ) (l : List (κ × ℕ)) :
    Ordered o (o + total size l) ((offsets size o l).map fun x => (x.1, size x.2)) := by
  induction l generalizing o with
  | nil => exact Nat.le_add_right o _
  | cons p l ih =>
    have h := ih (o + (size p.1 + p.2))
    rw [add_assoc, ← total_cons] at h
    exact ⟨le_rfl, h.mono (by dsimp only; omega) le_rfl⟩

/-- The paddings can be read off the places. -/
theorem gaps_offsets (o : ℕ) (l : List (κ × ℕ)) :
    gaps size (offsets size o l) (o + total size l) = l.map (·.2) := by
  induction l generalizing o with
  | nil => rfl
  | cons p l ih =>
    obtain ⟨k, pad⟩ := p
    cases l with
    | nil =>
      simp [offsets, gaps]
      omega
    | cons p' l =>
      have h := ih (o + (size k + pad))
      simp only [offsets, gaps, List.map_cons, total_cons] at h ⊢
      rw [show o + (size k + pad + (size p'.1 + p'.2 + total size l)) =
        o + (size k + pad) + (size p'.1 + p'.2 + total size l) by omega,
        h]
      simp
      omega

end

/-! ### A type as pieces -/

/-- The pieces of the leaves: together they are as large as the leaf. -/
structure Pieces {σ : Type} (T : Table σ) (κ : Type) where
  size : κ → ℕ
  kinds : σ → List κ
  sum_kinds : ∀ s, ((kinds s).map size).sum = T.size s

namespace LType

variable {σ κ : Type} {T : Table σ} (P : Pieces T κ)

/-- The pieces of leaves at places. -/
def spread (l : List (ℕ × σ)) : List (ℕ × κ) :=
  l.flatMap fun x => offsets P.size x.1 ((P.kinds x.2).map (·, 0))

mutual
/-- The pieces of a type with the padding after each. -/
def pieces : LType σ → List (κ × ℕ)
  | leaf s => (P.kinds s).map (·, 0)
  | array n e => (List.replicate n (pieces e)).flatten
  | struct packed es =>
    let (body, o, align) := structBody packed es [] 0 1
    padLast (alignUp o align - o) body
/-- The pieces of the members, after those so far, with where they end and the largest
alignment. -/
def structBody (packed : Bool) : List (LType σ) → List (κ × ℕ) → ℕ → ℕ → List (κ × ℕ) × ℕ × ℕ
  | [], acc, o, align => (acc, o, align)
  | e :: es, acc, o, align =>
    let o' := alignUp o (memberAlign T packed e)
    structBody packed es (padLast (o' - o) acc ++ pieces e) (o' + e.allocSize T)
      (max align (memberAlign T packed e))
end

mutual
/-- The number of pieces. -/
def numPieces : LType σ → ℕ
  | leaf s => (P.kinds s).length
  | array n e => n * numPieces e
  | struct _ es => numMemberPieces es
def numMemberPieces : List (LType σ) → ℕ
  | [] => 0
  | e :: es => numPieces e + numMemberPieces es
end

theorem length_pieces (t : LType σ) : (t.pieces P).length = t.numPieces P := by
  induction t using induction_on (q := fun es => ∀ packed acc o align,
      (structBody P packed es acc o align).1.length = acc.length + numMemberPieces P es) with
  | leaf s => simp [pieces, numPieces]
  | array n e ih => simp [pieces, numPieces, ih]
  | struct packed es ih => simp [pieces, numPieces, length_padLast, ih]
  | nil => simp [structBody, numMemberPieces]
  | cons e es ih ihs packed acc o align =>
    rw [structBody, ihs, List.length_append, length_padLast, ih, numMemberPieces, add_assoc]

/-- A type without leaves has no pieces. -/
theorem numPieces_of_hasLeaf (t : LType σ) : t.hasLeaf = false → t.numPieces P = 0 := by
  induction t using induction_on (q := fun es : List (LType σ) => membersHaveLeaf es = false →
    numMemberPieces P es = 0) with
  | leaf s => simp [hasLeaf]
  | array n e ih =>
    intro h
    rw [numPieces, ih h, mul_zero]
  | struct packed es ih => exact ih
  | nil => rfl
  | cons e es ih ihs h =>
    rw [membersHaveLeaf, Bool.or_eq_false_iff] at h
    rw [numMemberPieces, ih h.1, ihs h.2]

/-- The alignment of a struct with the members. -/
def membersAlign (packed : Bool) (es : List (LType σ)) : ℕ := if packed then 1 else maxAlign T es

theorem membersAlign_cons (packed : Bool) (e : LType σ) (es : List (LType σ)) :
    membersAlign (T := T) packed (e :: es) =
      max (memberAlign T packed e) (membersAlign (T := T) packed es) := by
  cases packed <;> simp [membersAlign, memberAlign, maxAlign]

theorem spread_append (l l' : List (ℕ × σ)) : spread P (l ++ l') = spread P l ++ spread P l' :=
  List.flatMap_append ..

/-- Copies of an element, one behind the other. -/
theorem offsets_replicate (n base : ℕ) (l : List (κ × ℕ)) :
    offsets P.size base (List.replicate n l).flatten = (List.range n).flatMap fun i =>
      offsets P.size (base + i * total P.size l) l := by
  induction n with
  | zero => rfl
  | succ n ih =>
    have htotal : total P.size (List.replicate n l).flatten = n * total P.size l := by simp [total]
    rw [List.replicate_succ', List.flatten_concat, offsets_append, ih, htotal, List.range_succ,
      List.flatMap_append]
    simp

theorem structBody_snd (packed : Bool) (es : List (LType σ)) (acc : List (κ × ℕ)) (o : ℕ) {align : ℕ}
    (h : 0 < align) :
    (structBody P packed es acc o align).2 =
      (structEnd T packed es o, max align (membersAlign (T := T) packed es)) := by
  induction es generalizing acc o align with
  | nil => simp [structBody, structEnd, membersAlign, maxAlign, Nat.max_eq_left h]
  | cons e es ih =>
    rw [structBody, ih _ _ (lt_max_of_lt_left h), structEnd, membersAlign_cons, max_assoc]

/-- The size and alignment of a struct, from its members. -/
theorem structBody_struct (packed : Bool) (es : List (LType σ)) :
    (structBody P packed es [] 0 1).2 = (structEnd T packed es 0, (struct packed es).abiAlign T) := by
  have halign : max 1 (membersAlign (T := T) packed es) = (struct packed es).abiAlign T := by
    rw [abiAlign, membersAlign]
    split_ifs
    · rfl
    · exact max_eq_right (maxAlign_pos es)
  rw [structBody_snd P packed es [] 0 one_pos, halign]

/-- **The pieces of a type lie where its leaves lie, and fill its size.** -/
theorem pieces_spec (t : LType σ) :
    (∀ base, offsets P.size base (t.pieces P) = spread P (t.leaves T base)) ∧
      total P.size (t.pieces P) = t.allocSize T := by
  induction t using induction_on (q := fun es => ∀ packed acc o align, total P.size acc = o →
      (∀ base, offsets P.size base (structBody P packed es acc o align).1 =
        offsets P.size base acc ++ spread P (structLeaves T packed es base o)) ∧
      total P.size (structBody P packed es acc o align).1 = structEnd T packed es o) with
  | leaf s =>
    constructor
    · intro base
      simp [pieces, leaves, spread]
    · have hsum := P.sum_kinds s
      simpa [pieces, allocSize, total, Function.comp_def] using hsum
  | array n e ih =>
    constructor
    · intro base
      rw [pieces, offsets_replicate, leaves, ih.2, spread, List.flatMap_assoc]
      exact List.flatMap_congr fun i _ => ih.1 _
    · have htotal :
        total P.size (List.replicate n (e.pieces P)).flatten = n * total P.size (e.pieces P) := by
        simp [total]
      rw [pieces, htotal, ih.2, allocSize]
  | struct packed es ih =>
    obtain ⟨hoffsets, htotal⟩ := ih packed [] 0 1 rfl
    have hsnd := structBody_struct P packed es
    have hpos := (struct packed es).abiAlign_pos (T := T)
    rw [pieces]
    generalize structBody P packed es [] 0 1 = body at hoffsets htotal hsnd
    obtain ⟨body, o, align⟩ := body
    cases hsnd
    constructor
    · intro base
      simpa [offsets_padLast, leaves, offsets] using hoffsets base
    · exact total_padLast_alignUp P.size htotal hpos
  | nil packed acc o align hacc => simp [structBody, structLeaves, structEnd, spread, hacc]
  | cons e es ih ihs packed acc o align hacc =>
    have hpos := memberAlign_pos (T := T) packed e
    set o' := alignUp o (memberAlign T packed e)
    have hpad : total P.size (padLast (o' - o) acc) = o' := total_padLast_alignUp P.size hacc hpos
    have hacc' : total P.size (padLast (o' - o) acc ++ e.pieces P) = o' + e.allocSize T := by
      rw [total_append, hpad, ih.2]
    obtain ⟨hoffsets, htotal⟩ := ihs packed _ _ (max align (memberAlign T packed e)) hacc'
    constructor
    · intro base
      rw [structBody, structLeaves, hoffsets, offsets_append, offsets_padLast, hpad, ih.1,
        spread_append, List.append_assoc]
    · rw [structBody, structEnd, htotal]

include P in
theorem allocSize_of_hasLeaf (t : LType σ) (h : t.hasLeaf = false) : t.allocSize T = 0 := by
  have hnil : t.pieces P = [] := by rw [← List.length_eq_zero_iff, length_pieces, numPieces_of_hasLeaf P t h]
  rw [← (pieces_spec P t).2, hnil, total_nil]

/-- The members fill the struct up to their end. -/
theorem total_structBody (packed : Bool) (es : List (LType σ)) {l : List (κ × ℕ)} {o a : ℕ}
    (h : total P.size l = o) :
    total P.size (structBody P packed es l o a).1 = structEnd T packed es o := by
  induction es generalizing l o a with
  | nil => exact h
  | cons e es ih =>
    rw [structBody, structEnd]
    refine ih ?_
    rw [total_append, total_padLast_alignUp P.size h (memberAlign_pos packed e), (pieces_spec P e).2]

end LType

end TypeLayout
