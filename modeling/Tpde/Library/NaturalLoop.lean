import Mathlib
import Tpde.Library.LoopNest

/-!
# Natural loops

Back edges, natural loops and reducible flow graphs, and what a loop nest of a
depth-first tree has to do with them: in a reducible graph the loop of a header
is its natural loop, and the header of a vertex is that of the innermost natural
loop around it.
-/

namespace FlowGraph

open PointerForest Relation

variable {V : Type*}

/-- An edge whose target dominates its source. -/
def BackEdge (E : V → V → Prop) (root u h : V) : Prop := E u h ∧ Dominates E root h u

/-- `h` is the target of a back edge. -/
def IsHead (E : V → V → Prop) (root h : V) : Prop := ∃ u, BackEdge E root u h

/-- The natural loop of `h`: `h`, and what reaches a back edge to `h` without passing `h`. -/
def NaturalLoop (E : V → V → Prop) (root h : V) : Set V :=
  {x | x = h ∨ ∃ u, BackEdge E root u h ∧ ReachIn E {z | z ≠ h} x u}

/-- Without its back edges the graph has no cycle. -/
def Reducible (E : V → V → Prop) (root : V) : Prop :=
  ∀ x, ¬ TransGen (fun u v => E u v ∧ ¬ BackEdge E root u v) x x

/-- `h` is the head of the innermost natural loop around `x`, other than the loop that `x` is the
head of. -/
structure Innermost (E : V → V → Prop) (root x h : V) : Prop where
  head : IsHead E root h
  ne : h ≠ x
  mem : x ∈ NaturalLoop E root h
  least : ∀ h', IsHead E root h' → h' ≠ x → x ∈ NaturalLoop E root h' →
    NaturalLoop E root h ⊆ NaturalLoop E root h'

variable {E : V → V → Prop} {root nil : V} {T : Set V} {anc : V → List V} {f : V → V}

/-- A rank that grows along all other edges shows that a graph is reducible. -/
theorem Reducible.of_rank (rank : V → ℕ) (h : ∀ u v, E u v → ¬ BackEdge E root u v → rank u < rank v) :
    Reducible E root := by
  have hlt : ∀ x y, TransGen (fun u v => E u v ∧ ¬ BackEdge E root u v) x y → rank x < rank y := by
    intro x y hxy
    induction hxy with
    | single he => exact h _ _ he.1 he.2
    | tail _ he ih => exact ih.trans (h _ _ he.1 he.2)
  exact fun x hx => lt_irrefl _ (hlt x x hx)

/-- An edge of the tree is no back edge. -/
theorem DfsTree.not_backEdge (h : DfsTree E root T anc) {x p : V} (hp : p ∈ T) (hxp : x ∉ anc p) :
    ¬ BackEdge E root p x :=
  fun hb => hxp (h.mem_of_dominates hp hb.2)

/-- Down the tree without a back edge. -/
theorem DfsTree.forward (h : DfsTree E root T anc) {x y : V} (hx : x ∈ T) (hy : y ∈ anc x) :
    ReflTransGen (fun u v => E u v ∧ ¬ BackEdge E root u v) y x := by
  revert hy
  refine h.induction (P := fun x => y ∈ anc x → ReflTransGen _ y x) ?_ ?_ x hx
  · intro _ ha hy
    rw [ha, List.mem_singleton] at hy
    exact hy ▸ .refl
  · intro x p hx hp he ha hxp ih hy
    rw [ha] at hy
    rcases List.mem_cons.mp hy with rfl | hy
    · exact .refl
    · exact (ih hy).tail ⟨he, h.not_backEdge hp hxp⟩

/-- In a reducible graph an edge to an ancestor is a back edge. -/
theorem DfsTree.backEdge_of_anc (h : DfsTree E root T anc) (hred : Reducible E root) {u a : V} (hu : u ∈ T)
    (ha : a ∈ anc u) (he : E u a) : BackEdge E root u a := by
  by_contra hb
  exact hred a (TransGen.tail' (h.forward hu ha) ⟨he, hb⟩)

namespace LoopNest

section
variable (h : LoopNest E root nil T anc f) (hE : ∀ x y, E x y → x ∈ T ∧ y ∈ T)

include hE in
theorem mem_of_naturalLoop {x a : V} (ha : IsHead E root a) (hm : x ∈ NaturalLoop E root a) : x ∈ T := by
  obtain ⟨v, hv⟩ := ha
  rcases hm with rfl | ⟨u, hu, hr⟩
  · exact (hE _ _ hv.1).2
  · by_cases hxu : x = u
    · exact hxu ▸ (hE _ _ hu.1).1
    · obtain ⟨y, he, -⟩ := hr.cases_first hxu
      exact (hE _ _ he).1

include h hE in
/-- A vertex of a natural loop has the head of the loop on its chain. -/
theorem chain_of_naturalLoop {x a : V} (hx : x ∈ T) (hm : x ∈ NaturalLoop E root a) : Chain nil f x a := by
  rcases hm with rfl | ⟨u, ⟨he, hdom⟩, hr⟩
  · exact .refl _
  · have hr' := (hdom.reachIn_dominated hr).inter (T := T) (fun y z _ he _ _ => (hE y z he).2) hx
    have hsub : ({z | z ≠ a ∧ Dominates E root a z} ∩ T) ⊆ {z | z ∈ T ∧ a ∈ anc z} :=
      fun z hz => ⟨hz.2, h.tree.mem_of_dominates hz.2 hz.1.2⟩
    have hua := h.tree.mem_of_dominates hr'.2 hdom
    have haT := h.tree.anc_mem hr'.2 hua
    have hlast : ReachIn E {z | z ∈ T ∧ a ∈ anc z} u a := .single he ⟨hr'.2, hua⟩ ⟨haT, h.tree.self_mem haT⟩
    have hxa : a ∈ anc x := h.tree.mem_of_dominates hx (hdom.of_reachIn hr)
    exact h.complete x hx a hxa ((hr'.1.mono hsub).trans hlast)

include h in
/-- In a reducible graph a header has a back edge from its loop, and its loop is in its natural loop. -/
theorem naturalLoop_of_chain (hred : Reducible E root) {x a : V} (hx : x ∈ T) (hc : Chain nil f x a)
    (hxa : a ≠ x) : IsHead E root a ∧ x ∈ NaturalLoop E root a := by
  obtain ⟨u, y, hxu, -, he, hu, -, hy, -⟩ :=
    (h.sound x hx a hc).exit (T := {z | z ≠ a}) (Ne.symm hxa) (fun hne => hne rfl)
  obtain rfl : y = a := by simpa using hy
  have hb := h.tree.backEdge_of_anc hred hu.1 (h.mem_anc hu.1 hu.2).1 he
  exact ⟨⟨u, hb⟩, .inr ⟨u, hb, hxu.mono Set.inter_subset_right⟩⟩

include h hE in
/-- In a reducible graph a natural loop has the natural loops of its vertices inside it. -/
theorem naturalLoop_subset (hred : Reducible E root) {a b : V} (ha : IsHead E root a)
    (hab : Chain nil f a b) : NaturalLoop E root a ⊆ NaturalLoop E root b := by
  intro y hy
  have hyT := mem_of_naturalLoop hE ha hy
  have hyb := (h.chain_of_naturalLoop hE hyT hy).trans hab
  by_cases hby : b = y
  · exact .inl hby.symm
  · exact (h.naturalLoop_of_chain hred hyT hyb hby).2

include h hE in
/-- In a reducible graph the header of a vertex is the head of the innermost natural loop around it. -/
theorem innermost (hred : Reducible E root) {x : V} (hx : x ∈ T) (hfx : f x ≠ nil) :
    Innermost E root x (f x) := by
  have hne := (h.header x hx hfx).2
  obtain ⟨hhead, hmem⟩ := h.naturalLoop_of_chain hred hx (.step hfx) hne
  refine ⟨hhead, hne, hmem, fun b _ hbx hxb => ?_⟩
  exact h.naturalLoop_subset hE hred hhead ((h.chain_of_naturalLoop hE hx hxb).cases.resolve_left hbx).2

include h hE in
/-- The natural loop of a head lies strictly in the other natural loops that the head is in. -/
theorem naturalLoop_ssubset (hred : Reducible E root) {x a : V} (hx : IsHead E root x)
    (hxa : x ∈ NaturalLoop E root a) (hne : a ≠ x) : NaturalLoop E root x ⊂ NaturalLoop E root a := by
  have hxT := mem_of_naturalLoop hE hx (.inl rfl)
  have hc := h.chain_of_naturalLoop hE hxT hxa
  have haT := h.mem_anc hxT hc
  refine (Set.ssubset_iff_of_subset (h.naturalLoop_subset hE hred hx hc)).mpr ⟨a, .inl rfl, fun ha => hne ?_⟩
  exact h.tree.antisymm hxT haT.1 (h.mem_anc haT.2 (h.chain_of_naturalLoop hE haT.2 ha)).1

include h hE in
/-- In a reducible graph the targets of back edges are the headers and the vertices with an edge
to themselves. -/
theorem isHead_iff (hred : Reducible E root) (a : V) :
    IsHead E root a ↔ (a ≠ nil ∧ ∃ x ∈ T, f x = a) ∨ E a a := by
  constructor
  · rintro ⟨u, hu⟩
    obtain ⟨huT, -⟩ := hE _ _ hu.1
    by_cases hua : a = u
    · exact .inr (hua ▸ hua.symm ▸ hu.1)
    · have hc := h.chain_of_naturalLoop hE huT (.inr ⟨u, hu, .refl _ _⟩)
      refine .inl ⟨hc.ne_nil hua, ?_⟩
      rcases ReflTransGen.cases_tail hc with rfl | ⟨x, hux, hxa, -⟩
      · exact absurd rfl hua
      · exact ⟨x, (h.mem_anc huT hux).2, hxa⟩
  · rintro (⟨hnil, x, hx, rfl⟩ | he)
    · exact (h.innermost hE hred hx hnil).head
    · exact ⟨a, he, dominates_refl root a⟩

end

end LoopNest

end FlowGraph
