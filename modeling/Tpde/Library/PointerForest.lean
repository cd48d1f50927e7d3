import Mathlib.Logic.Relation
import Mathlib.Logic.Function.Basic
import Mathlib.Tactic

/-!
# Forests of parent pointers

A forest kept as a map `f` from each vertex to its parent, with `nil` for a
root: the chain of a vertex (`Chain`), and what it takes to merge the chain of
one vertex into that of another when both are sorted by a rank (`Merged`). The
rules `Merged.last`, `Merged.done`, `Merged.swap` and `Merged.skip` are the four
cases of the merge loop, one for each way it can go on.
-/

namespace PointerForest

open Relation

variable {V : Type*} {nil : V} {f f' : V → V}

/-- `y` is on the chain of parents that starts at `x`. -/
def Chain (nil : V) (f : V → V) : V → V → Prop := ReflTransGen fun x y => f x = y ∧ y ≠ nil

theorem Chain.refl (x : V) : Chain nil f x x := ReflTransGen.refl

theorem Chain.step {x : V} (h : f x ≠ nil) : Chain nil f x (f x) := ReflTransGen.single ⟨rfl, h⟩

theorem Chain.trans {x y z : V} (h : Chain nil f x y) (h' : Chain nil f y z) : Chain nil f x z :=
  ReflTransGen.trans h h'

/-- What is on the chain of `x` other than `x` is on the chain of its parent. -/
theorem Chain.cases {x y : V} (h : Chain nil f x y) : y = x ∨ (f x ≠ nil ∧ Chain nil f (f x) y) := by
  rcases ReflTransGen.cases_head h with rfl | ⟨z, ⟨rfl, hz⟩, h'⟩
  · exact .inl rfl
  · exact .inr ⟨hz, h'⟩

theorem Chain.ne_nil {x y : V} (h : Chain nil f x y) (hxy : y ≠ x) : y ≠ nil := by
  rcases ReflTransGen.cases_tail h with rfl | ⟨z, -, -, hy⟩
  · exact absurd rfl hxy
  · exact hy

/-- Two vertices of one chain: one is on the chain of the other. -/
theorem Chain.total {x y z : V} (hy : Chain nil f x y) (hz : Chain nil f x z) :
    Chain nil f y z ∨ Chain nil f z y :=
  ReflTransGen.total_of_right_unique (fun _ _ _ h h' => h.1.symm.trans h'.1) hy hz

/-- The pointers keep inside `P` and lower the rank there. -/
structure Sorted (nil : V) (rank : V → ℕ) (P : V → Prop) (f : V → V) : Prop where
  mem : ∀ x, P x → f x ≠ nil → P (f x)
  lt : ∀ x, P x → f x ≠ nil → rank (f x) < rank x

variable {rank : V → ℕ} {P : V → Prop}

theorem Sorted.chain (h : Sorted nil rank P f) {x y : V} (hx : P x) (hc : Chain nil f x y) :
    P y ∧ rank y ≤ rank x := by
  induction hc with
  | refl => exact ⟨hx, le_rfl⟩
  | tail _ he ih =>
    obtain ⟨rfl, hz⟩ := he
    exact ⟨h.mem _ ih.1 hz, (h.lt _ ih.1 hz).le.trans ih.2⟩

/-- A pointer changed above the start of a chain does not change the chain. -/
theorem Sorted.chain_of_agree {g : V → V} (h : Sorted nil rank P f) {a x y : V} (hx : P x)
    (ha : rank x < rank a) (hg : ∀ z, z ≠ a → g z = f z) (hc : Chain nil g x y) : Chain nil f x y := by
  induction hc with
  | refl => exact .refl _
  | @tail u v _ he ih =>
    have hu := (h.chain hx ih).2
    rw [hg u (fun hua => absurd (hua ▸ hu) (by omega))] at he
    exact ih.trans (ReflTransGen.single he)

/-- `f'` comes from `f` by merging the chain of `b` into the chain of `a`. -/
structure Merged (nil : V) (rank : V → ℕ) (f : V → V) (a b : V) (f' : V → V) : Prop where
  /-- Nothing leaves a chain. -/
  mono : ∀ x y, Chain nil f x y → Chain nil f' x y
  linked : Chain nil f' a b
  /-- Only pointers of the two chains change, and to members of the two chains further down. -/
  changed : ∀ x, f' x ≠ f x → (Chain nil f a x ∨ Chain nil f b x) ∧ f' x ≠ nil ∧
    (Chain nil f a (f' x) ∨ Chain nil f b (f' x)) ∧ rank (f' x) < rank x

/-- Nothing to do for the chain of `a` itself. -/
theorem Merged.refl (a : V) : Merged nil rank f a a f where
  mono _ _ h := h
  linked := .refl _
  changed _ hx := absurd rfl hx

/-- The chain of `a` ends: append. -/
theorem Merged.last [DecidableEq V] {a b : V} (ha : f a = nil) (hb : b ≠ nil) (hlt : rank b < rank a) :
    Merged nil rank f a b (Function.update f a b) where
  mono x y h := by
    induction h with
    | refl => exact .refl _
    | @tail u v _ he ih =>
      refine ih.trans (ReflTransGen.single ?_)
      rwa [Function.update_of_ne (fun hua => he.2 (by rw [← he.1, hua, ha]))]
  linked := ReflTransGen.single ⟨Function.update_self .., hb⟩
  changed x hx := by
    obtain rfl : x = a := by
      by_contra hxa
      exact hx (Function.update_of_ne hxa ..)
    rw [Function.update_self]
    exact ⟨.inl (.refl _), hb, .inr (.refl _), hlt⟩

/-- `b` is already the parent of `a`. -/
theorem Merged.done {a : V} (ha : f a ≠ nil) : Merged nil rank f a (f a) f where
  mono _ _ h := h
  linked := .step ha
  changed _ hx := absurd rfl hx

/-- `b` comes before the parent of `a`: put it in between, then merge the parent below it. -/
theorem Merged.swap [DecidableEq V] {a b : V} (hs : Sorted nil rank P f) (hPa : P a) (hPb : P b)
    (ha : f a ≠ nil)
    (hb : b ≠ nil) (hlt : rank b < rank a)
    (h : Merged nil rank (Function.update f a b) b (f a) f') : Merged nil rank f a b f' := by
  have hagree : ∀ z, z ≠ a → Function.update f a b z = f z := fun z hz => Function.update_of_ne hz ..
  have hab : Chain nil f' a b :=
    h.mono _ _ (ReflTransGen.single ⟨Function.update_self .., hb⟩)
  have hfa : rank (f a) < rank a := hs.lt a hPa ha
  -- the chains of `b` and of the old parent lie below `a`, so the new pointer is not on them
  have hold : ∀ x, Chain nil (Function.update f a b) b x ∨ Chain nil (Function.update f a b) (f a) x →
      (Chain nil f a x ∨ Chain nil f b x) ∧ rank x < rank a := by
    rintro x (hx | hx)
    · have hx' := hs.chain_of_agree hPb hlt hagree hx
      exact ⟨.inr hx', (hs.chain hPb hx').2.trans_lt hlt⟩
    · have hx' := hs.chain_of_agree (hs.mem a hPa ha) hfa hagree hx
      exact ⟨.inl ((Chain.step ha).trans hx'), (hs.chain (hs.mem a hPa ha) hx').2.trans_lt hfa⟩
  refine ⟨fun x y hxy => ?_, hab, fun x hx => ?_⟩
  · induction hxy with
    | refl => exact .refl _
    | @tail u v _ he ih =>
      refine ih.trans ?_
      by_cases hua : u = a
      · subst hua
        rw [← he.1]
        exact hab.trans h.linked
      · exact h.mono _ _ (ReflTransGen.single ⟨(hagree u hua).trans he.1, he.2⟩)
  · by_cases hxa : x = a
    · subst hxa
      have hx' : f' x = b := by
        by_contra hne
        have := (h.changed x (by rwa [Function.update_self])).1
        exact absurd (hold x this).2 (lt_irrefl _)
      rw [hx']
      exact ⟨.inl (.refl _), hb, .inr (.refl _), hlt⟩
    · obtain ⟨h1, h2, h3, h4⟩ := h.changed x (by rwa [hagree x hxa])
      exact ⟨(hold x h1).1, h2, (hold _ h3).1, h4⟩

/-- The parent of `a` comes before `b`: go on from the parent. -/
theorem Merged.skip {a b : V} (ha : f a ≠ nil) (h : Merged nil rank f (f a) b f') :
    Merged nil rank f a b f' where
  mono := h.mono
  linked := (h.mono _ _ (.step ha)).trans h.linked
  changed x hx := by
    obtain ⟨h1, h2, h3, h4⟩ := h.changed x hx
    exact ⟨h1.imp_left (Chain.step ha).trans, h2, h3.imp_left (Chain.step ha).trans, h4⟩

section
variable {a b : V}

/-- The two chains together are closed under the new pointers. -/
theorem Merged.closed (h : Merged nil rank f a b f') {x y : V} (hx : Chain nil f a x ∨ Chain nil f b x)
    (hc : Chain nil f' x y) : Chain nil f a y ∨ Chain nil f b y := by
  induction hc with
  | refl => exact hx
  | @tail u v _ he ih =>
    by_cases hu : f' u = f u
    · have hstep : Chain nil f u v := ReflTransGen.single ⟨hu ▸ he.1, he.2⟩
      exact ih.imp (·.trans hstep) (·.trans hstep)
    · exact he.1 ▸ (h.changed u hu).2.2.1

/-- A chain grows only through a member of the two chains, and by members of them. -/
theorem Merged.chain_cases (h : Merged nil rank f a b f') {x y : V} (hc : Chain nil f' x y) :
    Chain nil f x y ∨ ∃ c, Chain nil f x c ∧ (Chain nil f a c ∨ Chain nil f b c) ∧
      (Chain nil f a y ∨ Chain nil f b y) ∧ Chain nil f' c y := by
  induction hc using ReflTransGen.head_induction_on with
  | refl => exact .inl (.refl _)
  | @head u v he hvy ih =>
    by_cases hu : f' u = f u
    · have hstep : Chain nil f u v := ReflTransGen.single ⟨hu ▸ he.1, he.2⟩
      rcases ih with ih | ⟨c, hc, h1, h2, h3⟩
      · exact .inl (hstep.trans ih)
      · exact .inr ⟨c, hstep.trans hc, h1, h2, h3⟩
    · have hch := h.changed u hu
      have hcy : Chain nil f' u y := ReflTransGen.head he hvy
      exact .inr ⟨u, .refl _, hch.1, h.closed hch.1 hcy, hcy⟩

/-- A vertex off the two chains keeps its parent. -/
theorem Merged.eq_of_off (h : Merged nil rank f a b f') {x : V}
    (hx : ¬(Chain nil f a x ∨ Chain nil f b x)) : f' x = f x := by
  by_contra hne
  exact hx (h.changed x hne).1

/-- Merging keeps the chains sorted. -/
theorem Merged.sorted (h : Merged nil rank f a b f') (hs : Sorted nil rank P f) (hPa : P a) (hPb : P b) :
    Sorted nil rank P f' where
  mem x hx hne := by
    by_cases hxe : f' x = f x
    · rw [hxe] at hne ⊢
      exact hs.mem x hx hne
    · exact (h.changed x hxe).2.2.1.elim (fun hc => (hs.chain hPa hc).1) (fun hc => (hs.chain hPb hc).1)
  lt x hx hne := by
    by_cases hxe : f' x = f x
    · rw [hxe] at hne ⊢
      exact hs.lt x hx hne
    · exact (h.changed x hxe).2.2.2

end

end PointerForest
