import Tpde.Library.DfsTree
import Tpde.Library.PointerForest

/-!
# Loop nesting forests of a depth-first search

A header map `f` on the vertices of a depth-first tree (`LoopNest`): the loop of
`h` is the set of vertices that have `h` on their chain of headers. Its vertices
are the descendants of `h` that reach `h` without leaving the descendants of `h`
(`sound`, `complete`). From this: the loop is strongly connected, every cycle lies
in the loop of its first vertex, and a vertex below the header that steps into
the loop is in the loop.
-/

namespace FlowGraph

open PointerForest

variable {V : Type*} {E : V → V → Prop} {root nil : V} {T : Set V} {anc : V → List V} {f : V → V}

/-- The body of the loop of `h`. -/
def Body (nil : V) (f : V → V) (T : Set V) (h : V) : Set V := {x | x ∈ T ∧ Chain nil f x h}

/-- `f` maps each vertex to the header of the innermost loop around it. -/
structure LoopNest (E : V → V → Prop) (root nil : V) (T : Set V) (anc : V → List V) (f : V → V) : Prop where
  tree : DfsTree E root T anc
  header : ∀ x ∈ T, f x ≠ nil → f x ∈ anc x ∧ f x ≠ x
  /-- A vertex of a loop reaches the header inside the loop. -/
  sound : ∀ x ∈ T, ∀ h, Chain nil f x h → ReachIn E (Body nil f T h) x h
  /-- What the tree has between the header and a vertex of the loop is in the loop. -/
  convex : ∀ x ∈ T, ∀ h, Chain nil f x h → ∀ z ∈ anc x, h ∈ anc z → Chain nil f z h
  /-- A vertex that reaches an ancestor through descendants of it is in its loop. -/
  complete : ∀ x ∈ T, ∀ h ∈ anc x, ReachIn E {z | z ∈ T ∧ h ∈ anc z} x h → Chain nil f x h

/-- The chain of headers goes up the tree. -/
theorem DfsTree.anc_of_chain (ht : DfsTree E root T anc) (hf : ∀ x ∈ T, f x ≠ nil → f x ∈ anc x ∧ f x ≠ x)
    {x a : V} (hx : x ∈ T) (hc : Chain nil f x a) : a ∈ anc x ∧ a ∈ T := by
  induction hc with
  | refl => exact ⟨ht.self_mem hx, hx⟩
  | @tail y z _ he ih =>
    obtain ⟨rfl, hz⟩ := he
    have hmem := (hf y ih.2 hz).1
    exact ⟨ht.trans hx ih.1 hmem, ht.anc_mem ih.2 hmem⟩

namespace LoopNest

theorem mem_anc (h : LoopNest E root nil T anc f) {x a : V} (hx : x ∈ T) (hc : Chain nil f x a) :
    a ∈ anc x ∧ a ∈ T := h.tree.anc_of_chain h.header hx hc

/-- The header reaches every vertex of its loop inside the loop. -/
theorem reach_body (h : LoopNest E root nil T anc f) {x a : V} (hx : x ∈ T) (hc : Chain nil f x a) :
    ReachIn E (Body nil f T a) a x := by
  refine ReachIn.mono ?_ (h.tree.reachIn hx (h.mem_anc hx hc).1)
  exact fun z hz => ⟨h.tree.anc_mem hx hz.2, h.convex x hx a hc z hz.2 hz.1⟩

/-- Any two vertices of a loop reach each other inside the loop. -/
theorem body_connected (h : LoopNest E root nil T anc f) {x y a : V} (hx : x ∈ Body nil f T a)
    (hy : y ∈ Body nil f T a) : ReachIn E (Body nil f T a) x y :=
  (h.sound x hx.1 a hx.2).trans (h.reach_body hy.1 hy.2)

/-- A vertex below the header with an edge into the loop is in the loop. -/
theorem mem_of_edge (h : LoopNest E root nil T anc f) {x y a : V} (hx : x ∈ T) (ha : a ∈ anc x) (he : E x y)
    (hy : y ∈ Body nil f T a) : x ∈ Body nil f T a := by
  refine ⟨hx, h.complete x hx a ha ?_⟩
  have hsub : Body nil f T a ⊆ {z | z ∈ T ∧ a ∈ anc z} := fun z hz => ⟨hz.1, (h.mem_anc hz.1 hz.2).1⟩
  have hstep : ReachIn E {z | z ∈ T ∧ a ∈ anc z} x y := .single he ⟨hx, ha⟩ (hsub hy)
  exact hstep.trans ((h.sound y hy.1 a hy.2).mono hsub)

/-- Every cycle lies in the loop of one of its vertices. -/
theorem exists_body_of_cycle (h : LoopNest E root nil T anc f) {pre : V → ℕ} (ho : DfsOrder E T anc pre)
    {S : Set V} (hS : S ⊆ T) {x : V} (hx : x ∈ S) :
    ∃ a ∈ S, ReachIn E S x a ∧ ReachIn E S a x ∧
      ∀ y, ReachIn E S x y → ReachIn E S y x → y ∈ Body nil f T a := by
  -- the vertex of the component of `x` in `S` that is entered first
  let K : Set V := {y | ReachIn E S x y ∧ ReachIn E S y x}
  obtain ⟨a, haK, hmin⟩ := (measure pre).wf.has_min K ⟨x, .refl _ _, .refl _ _⟩
  have haS : a ∈ S := haK.1.mem_right hx
  have hle : K ⊆ {z | pre a ≤ pre z} := fun z hz => Nat.not_lt.mp (hmin z hz)
  -- between two vertices of the component a walk stays in it
  have hwalk : ∀ y ∈ K, ∀ z ∈ K, ReachIn E S y z → ReachIn E K y z := by
    intro y hy z hz hyz
    have hfwd : ∀ u w, ReachIn E S x u → E u w → u ∈ S → w ∈ S → ReachIn E S x w :=
      fun u w hu he huS hwS => hu.trans (.single he huS hwS)
    have hback : ∀ u w, ReachIn E S w x → E u w → u ∈ S → w ∈ S → ReachIn E S u x :=
      fun u w hw he huS hwS => (ReachIn.single he huS hwS).trans hw
    have h1 := (hyz.inter (T := {w | ReachIn E S x w}) hfwd hy.1).1
    have h2 := (h1.inter_back (T := {w | ReachIn E S w x})
      (fun u w hw he huS hwS => hback u w hw he huS.1 hwS.1) hz.2).1
    refine ReachIn.mono ?_ h2
    exact fun w hw => ⟨hw.1.2, hw.2⟩
  have hbelow : ∀ y ∈ K, a ∈ anc y ∧ y ∈ T := fun y hy =>
    ho.mem_anc_of_reachIn h.tree (hS haS) ((hwalk a haK y hy (haK.2.trans hy.1)).mono hle)
  refine ⟨a, haS, haK.1, haK.2, fun y hxy hyx => ?_⟩
  have hyK : y ∈ K := ⟨hxy, hyx⟩
  refine ⟨(hbelow y hyK).2, h.complete y (hbelow y hyK).2 a (hbelow y hyK).1 ?_⟩
  refine ReachIn.mono ?_ (hwalk y hyK a haK (hyx.trans haK.1))
  exact fun z hz => ⟨(hbelow z hz).2, (hbelow z hz).1⟩

end LoopNest

end FlowGraph
