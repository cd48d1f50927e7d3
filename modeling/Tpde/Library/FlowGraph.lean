import Mathlib.Logic.Relation
import Mathlib.Data.Set.Basic

/-!
# Flow graphs

Walks, reachability inside a set of vertices and dominance in a directed graph
with a root, over an arbitrary type of vertices. The graph is its edge relation
`E`. A dominator is defined by walks (`Dominates`: every walk from the root
passes it); the proofs use the form with a set, `dominates_iff`: the vertex
cannot be reached once the dominator is taken out of the graph.
-/

namespace FlowGraph

open Relation

variable {V : Type*} {E : V → V → Prop}

/-! ### Reaching inside a set -/

/-- `b` is reached from `a` along edges with both ends in `S`. -/
def ReachIn (E : V → V → Prop) (S : Set V) : V → V → Prop :=
  ReflTransGen fun x y => E x y ∧ x ∈ S ∧ y ∈ S

/-- `b` is reached from `a`. -/
def Reach (E : V → V → Prop) : V → V → Prop := ReflTransGen E

theorem ReachIn.refl (S : Set V) (a : V) : ReachIn E S a a := ReflTransGen.refl

theorem ReachIn.single {S : Set V} {a b : V} (h : E a b) (ha : a ∈ S) (hb : b ∈ S) :
    ReachIn E S a b := ReflTransGen.single ⟨h, ha, hb⟩

theorem ReachIn.trans {S : Set V} {a b c : V} (h : ReachIn E S a b) (h' : ReachIn E S b c) :
    ReachIn E S a c := ReflTransGen.trans h h'

theorem ReachIn.mono {S T : Set V} (hST : S ⊆ T) {a b : V} (h : ReachIn E S a b) :
    ReachIn E T a b :=
  ReflTransGen.mono (fun _ _ he => ⟨he.1, hST he.2.1, hST he.2.2⟩) _ _ h

theorem ReachIn.reach {S : Set V} {a b : V} (h : ReachIn E S a b) : Reach E a b :=
  ReflTransGen.mono (fun _ _ he => he.1) _ _ h

/-- Reaching along a map of the vertices. -/
theorem ReachIn.map {W : Type*} {F : W → W → Prop} {S : Set V} {T : Set W} (f : V → W)
    (hf : ∀ x y, E x y → x ∈ S → y ∈ S → F (f x) (f y) ∧ f x ∈ T ∧ f y ∈ T) {a b : V} (h : ReachIn E S a b) :
    ReachIn F T (f a) (f b) := by
  induction h with
  | refl => exact .refl _ _
  | tail _ he ih => exact ReflTransGen.tail ih (hf _ _ he.1 he.2.1 he.2.2)

/-- The end of a walk inside `S` that starts in `S` is in `S`. -/
theorem ReachIn.mem_right {S : Set V} {a b : V} (h : ReachIn E S a b) (ha : a ∈ S) : b ∈ S := by
  cases h with
  | refl => exact ha
  | tail _ he => exact he.2.2

/-- A set closed under the edges that stay in `S` is not left. -/
theorem ReachIn.closed {S T : Set V} (hT : ∀ x y, x ∈ T → E x y → y ∈ S → y ∈ T) {a b : V}
    (h : ReachIn E S a b) (ha : a ∈ T) : b ∈ T := by
  induction h with
  | refl => exact ha
  | tail _ he ih => exact hT _ _ ih he.1 he.2.2

/-- The walk also stays in any set that it does not leave. -/
theorem ReachIn.inter {S T : Set V} (hT : ∀ x y, x ∈ T → E x y → x ∈ S → y ∈ S → y ∈ T) {a b : V}
    (h : ReachIn E S a b) (ha : a ∈ T) : ReachIn E (S ∩ T) a b ∧ b ∈ T := by
  induction h with
  | refl => exact ⟨.refl _ _, ha⟩
  | tail _ he ih =>
    have hy := hT _ _ ih.2 he.1 he.2.1 he.2.2
    have hstep : ReachIn E (S ∩ T) _ _ := .single he.1 ⟨he.2.1, ih.2⟩ ⟨he.2.2, hy⟩
    exact ⟨ih.1.trans hstep, hy⟩

/-- The same from the end of the walk. -/
theorem ReachIn.inter_back {S T : Set V} (hT : ∀ x y, y ∈ T → E x y → x ∈ S → y ∈ S → x ∈ T) {a b : V}
    (h : ReachIn E S a b) (hb : b ∈ T) : ReachIn E (S ∩ T) a b ∧ a ∈ T := by
  induction h using ReflTransGen.head_induction_on with
  | refl => exact ⟨.refl _ _, hb⟩
  | head he _ ih =>
    have hx := hT _ _ ih.2 he.1 he.2.1 he.2.2
    have hstep : ReachIn E (S ∩ T) _ _ := .single he.1 ⟨he.2.1, hx⟩ ⟨he.2.2, ih.2⟩
    exact ⟨hstep.trans ih.1, hx⟩

/-- The first step of a walk that goes somewhere. -/
theorem ReachIn.cases_first {S : Set V} {a b : V} (h : ReachIn E S a b) (hab : a ≠ b) :
    ∃ c, E a c ∧ a ∈ S ∧ c ∈ S ∧ ReachIn E S c b := by
  rcases ReflTransGen.cases_head h with rfl | ⟨c, he, h'⟩
  · exact absurd rfl hab
  · exact ⟨c, he.1, he.2.1, he.2.2, h'⟩

/-- The last step of a walk that goes somewhere. -/
theorem ReachIn.cases_last {S : Set V} {a b : V} (h : ReachIn E S a b) (hab : a ≠ b) :
    ∃ c, ReachIn E S a c ∧ E c b ∧ c ∈ S ∧ b ∈ S := by
  rcases ReflTransGen.cases_tail h with rfl | ⟨c, h', he⟩
  · exact absurd rfl hab
  · exact ⟨c, h', he.1, he.2.1, he.2.2⟩

/-- A walk that ends outside `T` and starts in it takes an edge out of `T`. -/
theorem ReachIn.exit {S T : Set V} {a b : V} (h : ReachIn E S a b) (ha : a ∈ T) (hb : b ∉ T) :
    ∃ x y, ReachIn E (S ∩ T) a x ∧ x ∈ T ∧ E x y ∧ x ∈ S ∧ y ∈ S ∧ y ∉ T ∧ ReachIn E S y b := by
  induction h using ReflTransGen.head_induction_on with
  | refl => exact absurd ha hb
  | @head a c he h' ih =>
    by_cases hc : c ∈ T
    · obtain ⟨x, y, h1, h2⟩ := ih hc
      have hstep : ReachIn E (S ∩ T) a c := .single he.1 ⟨he.2.1, ha⟩ ⟨he.2.2, hc⟩
      exact ⟨x, y, hstep.trans h1, h2⟩
    · exact ⟨a, c, .refl _ _, ha, he.1, he.2.1, he.2.2, hc, h'⟩

theorem reach_iff_reachIn_univ {a b : V} : Reach E a b ↔ ReachIn E Set.univ a b := by
  constructor
  · exact ReflTransGen.mono (fun _ _ he => ⟨he, Set.mem_univ _, Set.mem_univ _⟩) _ _
  · exact ReachIn.reach

/-! ### Walks and dominance -/

/-- A walk from `a` to `b`, with the vertices it passes. -/
inductive Walk (E : V → V → Prop) : V → V → List V → Prop where
  /-- A vertex by itself. -/
  | nil (a : V) : Walk E a a [a]
  /-- An edge, then a walk. -/
  | cons {a b c : V} {p : List V} : E a b → Walk E b c p → Walk E a c (a :: p)

/-- Every walk from the root `r` to `b` passes `a`. -/
def Dominates (E : V → V → Prop) (r a b : V) : Prop := ∀ p, Walk E r b p → a ∈ p

theorem Walk.reachIn {a b : V} {p : List V} (h : Walk E a b p) : ReachIn E {x | x ∈ p} a b := by
  induction h with
  | nil => exact .refl _ _
  | @cons a b c p he hp ih =>
    refine (ReachIn.single he (by simp) (List.mem_cons_of_mem _ ?_)).trans
      (ih.mono fun x hx => List.mem_cons_of_mem _ hx)
    cases hp <;> simp

theorem ReachIn.walk {S : Set V} {a b : V} (h : ReachIn E S a b) (ha : a ∈ S) :
    ∃ p, Walk E a b p ∧ ∀ x ∈ p, x ∈ S := by
  induction h using ReflTransGen.head_induction_on with
  | refl => exact ⟨[b], .nil b, by simpa using ha⟩
  | head he _ ih =>
    obtain ⟨p, hp, hS⟩ := ih he.2.2
    refine ⟨_, .cons he.1 hp, fun x hx => ?_⟩
    rcases List.mem_cons.mp hx with rfl | hx
    · exact ha
    · exact hS x hx

/-- A vertex other than the root dominates `b` when `b` is not reached without it. -/
theorem dominates_iff {r a b : V} : Dominates E r a b ↔ (r = a ∨ ¬ ReachIn E {x | x ≠ a} r b) := by
  constructor
  · intro h
    by_cases hra : r = a
    · exact .inl hra
    · refine .inr fun hr => ?_
      obtain ⟨p, hp, hS⟩ := hr.walk (S := {x | x ≠ a}) hra
      exact hS a (h p hp) rfl
  · rintro (rfl | h) p hp
    · cases hp <;> simp
    · by_contra hmem
      exact h (hp.reachIn.mono fun x (hx : x ∈ p) (hxa : x = a) => hmem (hxa ▸ hx))

theorem dominates_refl (r a : V) : Dominates E r a a := by
  intro p hp
  induction hp with
  | nil => simp
  | cons _ _ ih => exact List.mem_cons_of_mem _ ih

theorem root_dominates (r b : V) : Dominates E r r b := dominates_iff.mpr (.inl rfl)

/-- What a walk passes is reached. -/
theorem Walk.reach {a b x : V} {p : List V} (h : Walk E a b p) (hx : x ∈ p) : Reach E a x := by
  induction h with
  | nil => exact List.mem_singleton.mp hx ▸ ReflTransGen.refl
  | cons he _ ih =>
    rcases List.mem_cons.mp hx with rfl | hx
    · exact ReflTransGen.refl
    · exact ReflTransGen.head he (ih hx)

/-- A dominator of what is reached is reached. -/
theorem Dominates.reach {r a b : V} (h : Dominates E r a b) (hb : Reach E r b) : Reach E r a := by
  obtain ⟨p, hp, -⟩ := (reach_iff_reachIn_univ.mp hb).walk (Set.mem_univ r)
  exact hp.reach (h p hp)

/-- The root has no dominator but itself. -/
theorem Dominates.eq_root {r a : V} (h : Dominates E r a r) : a = r := by
  simpa using h [r] (.nil r)

/-- A single predecessor dominates. -/
theorem dominates_of_pred {r p b : V} (hb : b ≠ r) (hp : ∀ q, E q b → q = p) : Dominates E r p b := by
  intro w hw
  induction hw with
  | nil => exact absurd rfl hb
  | @cons a c b w he hw ih =>
    cases hw with
    | nil => exact hp a he ▸ List.mem_cons_self
    | @cons _ d _ w he' hw =>
      by_cases hbc : b = c
      · subst hbc
        exact hp a he ▸ List.mem_cons_self
      · exact List.mem_cons_of_mem _ (ih hbc hp)

/-- What dominates the end of a walk that avoids it dominates the start. -/
theorem Dominates.of_reachIn {r a b c : V} (h : Dominates E r a c) (hbc : ReachIn E {x | x ≠ a} b c) :
    Dominates E r a b := by
  rw [dominates_iff] at h ⊢
  exact h.imp_right fun hn hr => hn (hr.trans hbc)

/-- A strict dominator dominates every predecessor. -/
theorem Dominates.pred {r a b p : V} (h : Dominates E r a b) (hab : a ≠ b) (hp : E p b) :
    Dominates E r a p := by
  by_cases hpa : p = a
  · exact hpa ▸ dominates_refl r p
  · exact h.of_reachIn (.single hp hpa (Ne.symm hab))

/-- A walk that avoids a dominator of its end is dominated all along. -/
theorem Dominates.reachIn_dominated {r a b c : V} (h : Dominates E r a c)
    (hbc : ReachIn E {x | x ≠ a} b c) : ReachIn E {x | x ≠ a ∧ Dominates E r a x} b c :=
  (hbc.inter_back (T := {x | Dominates E r a x})
    (fun _ _ (hy : Dominates E r a _) he _ (hya : _ ≠ a) => hy.pred (Ne.symm hya) he) h).1

/-- Dominance is antisymmetric on reachable vertices. -/
theorem Dominates.antisymm {r a b : V} (hab : Dominates E r a b) (hba : Dominates E r b a)
    (ha : Reach E r a) : a = b := by
  by_contra hne
  by_cases hr : r = a ∨ r = b
  · rcases hr with rfl | rfl
    · exact hne hba.eq_root.symm
    · exact hne hab.eq_root
  -- a walk to `a`, cut where it first meets `a` or `b`
  let T : Set V := {x | ReachIn E {z | z ≠ a ∧ z ≠ b} r x ∧ ¬(x = a ∨ x = b)}
  obtain ⟨x, y, -, hx, he, -, -, hy, -⟩ :=
    ReachIn.exit (T := T) (reach_iff_reachIn_univ.mp ha) ⟨.refl _ _, hr⟩ (fun h => h.2 (.inl rfl))
  obtain ⟨hrx, hxab⟩ := hx
  rw [not_or] at hr hxab
  have hyab : y = a ∨ y = b := by
    by_contra hc
    exact hy ⟨hrx.trans (.single he hxab (not_or.mp hc)), hc⟩
  rcases hyab with rfl | rfl
  · refine (dominates_iff.mp hba).resolve_left hr.2 ?_
    exact (hrx.mono fun z hz => hz.2).trans (.single he hxab.2 hne)
  · refine (dominates_iff.mp hab).resolve_left hr.1 ?_
    exact (hrx.mono fun z hz => hz.1).trans (.single he hxab.1 (Ne.symm hne))

end FlowGraph
