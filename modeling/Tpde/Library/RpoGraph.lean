import Tpde.Library.FlowGraph
import Mathlib.Tactic

/-!
# Graphs numbered in reverse post-order

A flow graph on the numbers below `numBlocks`, numbered in reverse post-order
from the entry `0`: every other vertex has a smaller predecessor (`pred`), and
an edge from `i` back to `j` makes everything between the two reachable from `j`
through numbers that are not smaller (`retreat`). Dominators have smaller
numbers, and a cycle that is entered from above can be closed from one of its
vertices without going below it (`exists_cycle`).
-/

namespace FlowGraph

/-- A graph numbered in reverse post-order. -/
structure RpoGraph where
  numBlocks : ℕ
  succs : ℕ → List ℕ
  numBlocks_pos : 0 < numBlocks
  lt_of_succs : ∀ i, ∀ j ∈ succs i, i < numBlocks ∧ j < numBlocks
  root_notMem : ∀ i, 0 ∉ succs i
  pred : ∀ j < numBlocks, j ≠ 0 → ∃ i < j, j ∈ succs i
  retreat : ∀ i j k, j ∈ succs i → j ≤ k → k ≤ i → ReachIn (fun x y => y ∈ succs x) {x | j ≤ x} j k

namespace RpoGraph

variable (g : RpoGraph)

/-- There is an edge from `i` to `j`. -/
def Edge (i j : ℕ) : Prop := j ∈ g.succs i

/-- The vertices. -/
def Blocks : Set ℕ := {i | i < g.numBlocks}

variable {g}

theorem Edge.lt_left {i j : ℕ} (h : g.Edge i j) : i < g.numBlocks := (g.lt_of_succs i j h).1

theorem Edge.lt_right {i j : ℕ} (h : g.Edge i j) : j < g.numBlocks := (g.lt_of_succs i j h).2

theorem Edge.ne_zero {i j : ℕ} (h : g.Edge i j) : j ≠ 0 := fun hj => g.root_notMem i (hj ▸ h)

/-- Every vertex is reached from the entry through smaller ones. -/
theorem reachIn_zero {j : ℕ} (hj : j < g.numBlocks) : ReachIn g.Edge {x | x ≤ j} 0 j := by
  induction j using Nat.strong_induction_on with
  | _ j ih =>
    by_cases h0 : j = 0
    · exact h0 ▸ .refl _ _
    · obtain ⟨i, hij, he⟩ := g.pred j hj h0
      have hmono : {x | x ≤ i} ⊆ {x | x ≤ j} := fun x (hx : x ≤ i) => hx.trans hij.le
      have hlast : ReachIn g.Edge {x | x ≤ j} i j := .single he hij.le (le_refl j)
      exact ((ih i hij (hij.trans hj)).mono hmono).trans hlast

theorem reach_zero {j : ℕ} (hj : j < g.numBlocks) : Reach g.Edge 0 j := (reachIn_zero hj).reach

/-- A dominator has the smaller number. -/
theorem le_of_dominates {a b : ℕ} (hb : b < g.numBlocks) (h : Dominates g.Edge 0 a b) : a ≤ b := by
  rcases dominates_iff.mp h with rfl | hn
  · exact Nat.zero_le b
  · by_contra hlt
    have hsub : {x | x ≤ b} ⊆ {x | x ≠ a} := by
      rintro x hx rfl
      exact hlt hx
    exact hn ((reachIn_zero hb).mono hsub)

/-- An edge back from `i` to `j` closes a cycle through everything between the two. -/
theorem reachIn_of_retreat {i j k : ℕ} (he : g.Edge i j) (hjk : j ≤ k) (hki : k ≤ i) :
    ReachIn g.Edge {x | j ≤ x} j k := g.retreat i j k he hjk hki

/-- A walk from `v` that ends below `u` passes a vertex below `u` that reaches `u` through vertices
that are not smaller, if `v` is a successor of `u`. -/
theorem exists_cycle {S : Set ℕ} {u v z : ℕ} (he : g.Edge u v) (hu : u ∈ S) (hv : v ∈ S)
    (hw : ReachIn g.Edge S v z) (hz : z < u) :
    ∃ w ∈ S, w < u ∧ ReachIn g.Edge S u w ∧ ReachIn g.Edge {x | w ≤ x} w u := by
  -- the first vertex of the walk that is below `u`
  by_cases hvu : v < u
  · exact ⟨v, hv, hvu, .single he hu hv, reachIn_of_retreat he hvu.le le_rfl⟩
  · obtain ⟨x, y, hvx, hx, hxy, hxS, hyS, hy, -⟩ :=
      ReachIn.exit (T := {x | u ≤ x}) hw (Nat.not_lt.mp hvu) (by simpa using hz)
    have hyu : y < u := by simpa using hy
    have hux : u ≤ x := hx
    refine ⟨y, hyS, hyu, ?_, reachIn_of_retreat hxy hyu.le hux⟩
    have hvx' : ReachIn g.Edge S v x := hvx.mono Set.inter_subset_left
    exact (ReachIn.single he hu hv).trans (hvx'.trans (.single hxy hxS hyS))

end RpoGraph

end FlowGraph
