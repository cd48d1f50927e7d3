import Tpde.Library.TypeLayout

/-!
# Paths into nested types

A leaf of a type is reached by the indices of the elements and members on the way to it;
its place is the sum of the offsets on that way (`leaves_eq_map`). Leaves do not overlap
(`leaves_ordered`), and smaller leaves with weaker alignments are never placed further
out (`leaves_le`).
-/

namespace TypeLayout.LType

open Ranges

variable {σ : Type}

/-! ### Places by indices -/

mutual
/-- The indices that lead to each leaf. -/
def leafPaths : LType σ → List (List ℕ × σ)
  | leaf s => [([], s)]
  | array n e => (List.range n).flatMap fun i => (leafPaths e).map fun x => (i :: x.1, x.2)
  | struct _ es => memberPaths es 0
/-- The indices that lead to the leaves of the members, the first of which is the `j`-th. -/
def memberPaths : List (LType σ) → ℕ → List (List ℕ × σ)
  | [], _ => []
  | e :: es, j => ((leafPaths e).map fun x => (j :: x.1, x.2)) ++ memberPaths es (j + 1)
end

section
variable (T : Table σ)

/-- The place of the `j`-th member, of those laid out from `o` on. -/
def memberOffset (packed : Bool) : List (LType σ) → ℕ → ℕ → ℕ
  | [], o, _ => o
  | e :: _, o, 0 => alignUp o (memberAlign T packed e)
  | e :: es, o, j + 1 => memberOffset packed es (alignUp o (memberAlign T packed e) + e.allocSize T) j

/-- The place of what indices lead to. -/
def pathOffset : LType σ → List ℕ → ℕ
  | array _ e, i :: path => i * e.allocSize T + pathOffset e path
  | struct packed es, j :: path =>
    match es[j]? with
    | some e => memberOffset T packed es 0 j + pathOffset e path
    | none => 0
  | _, _ => 0

variable {T}

theorem memberOffset_length (packed : Bool) (pre : List (LType σ)) (e : LType σ)
    (es : List (LType σ)) (o : ℕ) :
    memberOffset T packed (pre ++ e :: es) o pre.length =
      alignUp (structEnd T packed pre o) (memberAlign T packed e) := by
  induction pre generalizing o with
  | nil => rfl
  | cons e' pre ih => exact ih _

theorem structEnd_concat (packed : Bool) (pre : List (LType σ)) (e : LType σ) (o : ℕ) :
    structEnd T packed (pre ++ [e]) o = alignUp (structEnd T packed pre o) (memberAlign T packed e) +
      e.allocSize T := by
  induction pre generalizing o with
  | nil => rfl
  | cons e' pre ih => exact ih _

/-- **The leaves lie where their indices lead.** -/
theorem leaves_eq_map (t : LType σ) : ∀ base, t.leaves T base = t.leafPaths.map fun x =>
    (base + pathOffset T t x.1, x.2) := by
  induction t using induction_on (q := fun es => ∀ packed pre base,
    structLeaves T packed es base (structEnd T packed pre 0) =
      (memberPaths es pre.length).map fun x =>
        (base + pathOffset T (struct packed (pre ++ es)) x.1, x.2)) with
  | leaf s =>
    intro base
    rfl
  | array n e ih =>
    intro base
    rw [leaves, leafPaths, List.map_flatMap]
    refine List.flatMap_congr fun i _ => ?_
    rw [ih, List.map_map]
    refine List.map_congr_left fun x _ => ?_
    simp [pathOffset, add_assoc]
  | struct packed es ih =>
    intro base
    exact ih packed [] base
  | nil => rfl
  | cons e es ih ihs packed pre base =>
    rw [structLeaves, memberPaths, List.map_append, List.map_map]
    congr 1
    · rw [ih]
      refine List.map_congr_left fun x _ => ?_
      simp [pathOffset, memberOffset_length, add_assoc]
    · have h := ihs packed (pre ++ [e]) base
      rw [structEnd_concat, List.append_assoc, List.length_append] at h
      exact h

end

theorem mem_memberPaths {es : List (LType σ)} {j : ℕ} {x : List ℕ × σ} (h : x ∈ memberPaths es j) :
    ∃ i e path, es[i]? = some e ∧ x.1 = (j + i) :: path ∧ (path, x.2) ∈ e.leafPaths := by
  induction es generalizing j with
  | nil => cases h
  | cons e es ih =>
    rw [memberPaths, List.mem_append] at h
    rcases h with h | h
    · obtain ⟨y, hy, rfl⟩ := List.mem_map.mp h
      exact ⟨0, e, y.1, rfl, rfl, hy⟩
    · obtain ⟨i, e', path, he, hx, hmem⟩ := ih h
      exact ⟨i + 1, e', path, he, by rw [hx]; congr 1; omega, hmem⟩

/-- What holds of all leaves holds of each that indices lead to. -/
theorem All.of_mem {p : σ → Prop} (t : LType σ) : t.All p → ∀ x ∈ t.leafPaths, p x.2 := by
  induction t using induction_on (q := fun es => AllMembers p es → ∀ j, ∀ x ∈ memberPaths es j, p x.2) with
  | leaf s =>
    intro h x hx
    obtain rfl := List.mem_singleton.mp hx
    exact h
  | array n e ih =>
    intro h x hx
    obtain ⟨i, -, hx⟩ := List.mem_flatMap.mp hx
    obtain ⟨y, hy, rfl⟩ := List.mem_map.mp hx
    exact ih h y hy
  | struct packed es ih =>
    intro h
    exact ih h 0
  | nil h j x hx => cases hx
  | cons e es ih ihs h j x hx =>
    rw [memberPaths, List.mem_append] at hx
    rcases hx with hx | hx
    · obtain ⟨y, hy, rfl⟩ := List.mem_map.mp hx
      exact ih h.1 y hy
    · exact ihs h.2 (j + 1) x hx

/-! ### Leaves are apart -/

variable {T : Table σ}

/-- The leaves of a type lie one behind the other, within its size. -/
theorem leaves_ordered (t : LType σ) : ∀ base,
    Ordered base (base + t.allocSize T) ((t.leaves T base).map fun x => (x.1, T.size x.2)) := by
  induction t using induction_on (q := fun es => ∀ packed base o,
    Ordered (base + o) (base + structEnd T packed es o)
      ((structLeaves T packed es base o).map fun x => (x.1, T.size x.2))) with
  | leaf s =>
    intro base
    exact ⟨le_rfl, le_rfl⟩
  | array n e ih =>
    intro base
    rw [leaves, allocSize]
    induction n with
    | zero => simp [Ordered]
    | succ n ihn =>
      rw [List.range_succ, List.flatMap_append, List.map_append, List.flatMap_singleton]
      refine Ordered.append ?_ ihn
      exact (ih _).mono le_rfl (by rw [add_assoc, Nat.succ_mul])
  | struct packed es ih =>
    intro base
    exact (ih packed base 0).mono le_rfl
      (Nat.add_le_add_left (le_alignUp _ ((struct packed es).abiAlign_pos (T := T))) base)
  | nil packed base o => exact le_rfl
  | cons e es ih ihs packed base o =>
    have hle := le_alignUp o (memberAlign_pos (T := T) packed e)
    rw [structLeaves, List.map_append]
    refine Ordered.append (ihs packed base _) ?_
    exact (ih _).mono (by omega) (by omega)

/-! ### Two layouts -/

/-- The alignments are powers of two. -/
def PowTwo (T : Table σ) : Prop := ∀ s, ∃ k, T.align s = 2 ^ k

theorem abiAlign_pow (hT : PowTwo T) (t : LType σ) : ∃ k, t.abiAlign T = 2 ^ k := by
  induction t using induction_on (q := fun es => ∃ k, maxAlign T es = 2 ^ k) with
  | leaf s => exact hT s
  | array n e ih => exact ih
  | struct packed es ih =>
    cases packed
    · exact ih
    · exact ⟨0, rfl⟩
  | nil => exact ⟨0, rfl⟩
  | cons e es ih ihs => exact max_rec' (fun a => ∃ k, a = 2 ^ k) ih ihs

/-- Of powers of two, the smaller one divides the larger one. -/
theorem dvd_of_le_pow {a b : ℕ} (ha : ∃ k, a = 2 ^ k) (hb : ∃ k, b = 2 ^ k) (h : a ≤ b) : a ∣ b := by
  obtain ⟨i, rfl⟩ := ha
  obtain ⟨j, rfl⟩ := hb
  exact Nat.pow_dvd_pow 2 ((Nat.pow_le_pow_iff_right (by decide)).mp h)

/-- A layout whose leaves are no larger and need no coarser alignment. -/
structure Finer (T T' : Table σ) : Prop where
  size : ∀ s, T.size s ≤ T'.size s
  align : ∀ s, T.align s ≤ T'.align s
  pow : PowTwo T
  pow' : PowTwo T'

variable {T' : Table σ}

theorem Finer.abiAlign (h : Finer T T') (t : LType σ) : t.abiAlign T ≤ t.abiAlign T' := by
  induction t using induction_on (q := fun es => maxAlign T es ≤ maxAlign T' es) with
  | leaf s => exact h.align s
  | array n e ih => exact ih
  | struct packed es ih =>
    cases packed
    · exact ih
    · exact le_rfl
  | nil => exact le_rfl
  | cons e es ih ihs => exact max_le_max ih ihs

theorem Finer.memberAlign (h : Finer T T') (packed : Bool) (e : LType σ) :
    memberAlign T packed e ∣ memberAlign T' packed e := by
  cases packed
  · exact dvd_of_le_pow (abiAlign_pow h.pow e) (abiAlign_pow h.pow' e) (h.abiAlign e)
  · exact dvd_rfl

/-- One leaf lies no further out than the other. -/
def Before {κ : Type} (x y : ℕ × κ) : Prop := x.1 ≤ y.1 ∧ x.2 = y.2

/-- **Smaller leaves with weaker alignments are never placed further out.** -/
theorem Finer.leaves_le (h : Finer T T') (t : LType σ) : t.allocSize T ≤ t.allocSize T' ∧
    ∀ base base', base ≤ base' → List.Forall₂ Before (t.leaves T base) (t.leaves T' base') := by
  induction t using induction_on (q := fun es => ∀ packed o o', o ≤ o' →
    structEnd T packed es o ≤ structEnd T' packed es o' ∧
      ∀ base base', base ≤ base' →
        List.Forall₂ Before (structLeaves T packed es base o) (structLeaves T' packed es base' o')) with
  | leaf s => exact ⟨h.size s, fun base base' hle => .cons ⟨hle, rfl⟩ .nil⟩
  | array n e ih =>
    refine ⟨Nat.mul_le_mul_left n ih.1, fun base base' hle => ?_⟩
    rw [leaves, leaves]
    induction n with
    | zero => exact .nil
    | succ n ihn =>
      rw [List.range_succ, List.flatMap_append, List.flatMap_append, List.flatMap_singleton,
        List.flatMap_singleton]
      exact List.rel_append ihn (ih.2 _ _ (Nat.add_le_add hle (Nat.mul_le_mul_left n ih.1)))
  | struct packed es ih =>
    obtain ⟨hend, hleaves⟩ := ih packed 0 0 le_rfl
    refine ⟨?_, hleaves⟩
    exact alignUp_mono (abiAlign_pos (T := T) (.struct packed es))
      (abiAlign_pos (T := T') (.struct packed es)) hend
      (dvd_of_le_pow (abiAlign_pow h.pow (.struct packed es)) (abiAlign_pow h.pow' (.struct packed es))
        (h.abiAlign (.struct packed es)))
  | nil packed o o' hle => exact ⟨hle, fun _ _ _ => .nil⟩
  | cons e es ih ihs packed o o' hle =>
    have hplace :=
      alignUp_mono (memberAlign_pos packed e) (memberAlign_pos packed e) hle (h.memberAlign packed e)
    obtain ⟨hend, hleaves⟩ := ihs packed _ _ (Nat.add_le_add hplace ih.1)
    refine ⟨hend, fun base base' hbase => ?_⟩
    exact List.rel_append (ih.2 _ _ (Nat.add_le_add hbase hplace)) (hleaves base base' hbase)

section
variable {κ : Type} (size : κ → ℕ)

/-- Pieces with less padding are never placed further out. -/
theorem offsets_before {o o' : ℕ} (ho : o ≤ o') {l l' : List (κ × ℕ)}
    (h : List.Forall₂ (fun p q => p.1 = q.1 ∧ p.2 ≤ q.2) l l') :
    List.Forall₂ Before (offsets size o l) (offsets size o' l') := by
  induction h generalizing o o' with
  | nil => exact .nil
  | @cons p q l l' hpq _ ih =>
    obtain ⟨hkind, hpad⟩ := hpq
    refine .cons ⟨ho, hkind⟩ (ih ?_)
    rw [hkind]
    omega

variable {size}

/-- The pieces of leaves that are placed no further out are placed no further out. -/
theorem spread_before (P : Pieces T κ) {l l' : List (ℕ × σ)} (h : List.Forall₂ Before l l') :
    List.Forall₂ Before (spread P l) (spread P l') := by
  refine List.rel_flatMap h fun x y hxy => ?_
  rw [hxy.2]
  exact offsets_before P.size hxy.1 (List.forall₂_same.mpr fun p _ => ⟨rfl, le_rfl⟩)

/-- Between places that are equal nothing moves. -/
theorem eq_of_before {l l' l'' : List (ℕ × κ)} (h : List.Forall₂ Before l l')
    (h' : List.Forall₂ Before l' l'')
    (heq : l.map (·.1) = l''.map (·.1)) : l = l' ∧ l' = l'' := by
  induction h generalizing l'' with
  | nil =>
    cases h'
    exact ⟨rfl, rfl⟩
  | @cons x y l l' hxy _ ih =>
    cases h' with
    | @cons _ z _ l'' hyz hrest =>
      rw [List.map_cons, List.map_cons, List.cons.injEq] at heq
      obtain ⟨hl, hl'⟩ := ih hrest heq.2
      have hle := hxy.1
      have hle' := hyz.1
      have hplaces := heq.1
      exact ⟨by rw [Prod.ext (show x.1 = y.1 by omega) hxy.2, hl],
        by rw [Prod.ext (show y.1 = z.1 by omega) hyz.2, hl']⟩

end

/-- A bound on the size, from one on the leaves: by `M` for each piece. -/
theorem allocSize_le {κ : Type} (P : Pieces T' κ) {M : ℕ} (t : LType σ)
    (ht : t.All fun s => T.align s ∣ M ∧ T.size s ≤ (P.kinds s).length * M) : t.abiAlign T ∣ M ∧
      t.allocSize T ≤ t.numPieces P * M := by
  induction t using induction_on
    (q := fun es => AllMembers (fun s => T.align s ∣ M ∧ T.size s ≤ (P.kinds s).length * M) es →
      maxAlign T es ∣ M ∧ ∀ packed o k, o ≤ k * M →
        structEnd T packed es o ≤ (k + numMemberPieces P es) * M) with
  | leaf s => exact ht
  | array n e ih =>
    obtain ⟨halign, hsize⟩ := ih ht
    refine ⟨halign, ?_⟩
    rw [allocSize, numPieces, mul_assoc]
    exact Nat.mul_le_mul_left n hsize
  | struct packed es ih =>
    obtain ⟨halign, hsize⟩ := ih ht
    have hdvd : (struct packed es).abiAlign T ∣ M := by
      cases packed
      · exact halign
      · exact one_dvd M
    refine ⟨hdvd, ?_⟩
    have hend := hsize packed 0 0 (Nat.zero_le _)
    rw [zero_add] at hend
    exact alignUp_le_of_dvd ((struct packed es).abiAlign_pos (T := T)) hend (Dvd.dvd.mul_left hdvd _)
  | nil => exact ⟨one_dvd M, fun packed o k hle => hle⟩
  | cons e es ih ihs h =>
    obtain ⟨halign, hsize⟩ := ih h.1
    obtain ⟨haligns, hrest⟩ := ihs h.2
    refine ⟨max_rec' (· ∣ M) halign haligns, fun packed o k hle => ?_⟩
    have hdvd : memberAlign T packed e ∣ M := by
      cases packed
      · exact halign
      · exact one_dvd M
    have hplace := alignUp_le_of_dvd (memberAlign_pos (T := T) packed e) hle (Dvd.dvd.mul_left hdvd k)
    rw [structEnd, numMemberPieces, ← add_assoc]
    refine hrest packed _ _ ?_
    rw [Nat.add_mul]
    exact Nat.add_le_add hplace hsize

end TypeLayout.LType
