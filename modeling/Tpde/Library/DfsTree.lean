import Tpde.Library.FlowGraph
import Mathlib.Tactic

/-!
# Depth-first spanning trees

A spanning tree of the visited part `T` of a flow graph, kept as the list of
ancestors `anc x` of each vertex, from the vertex itself up to the root. The
lists of two vertices on one branch are suffixes of each other, which is what
the order of ancestors comes down to.
-/

namespace FlowGraph

variable {V : Type*} {E : V → V → Prop} {root : V} {T : Set V} {anc : V → List V}

/-- `anc` lists the ancestors of every vertex of `T` in a tree of edges with the given root. -/
structure DfsTree (E : V → V → Prop) (root : V) (T : Set V) (anc : V → List V) : Prop where
  anc_root : root ∈ T → anc root = [root]
  step : ∀ x ∈ T, x ≠ root → ∃ p ∈ T, E p x ∧ anc x = x :: anc p ∧ x ∉ anc p

namespace DfsTree

theorem cases (h : DfsTree E root T anc) {x : V} (hx : x ∈ T) :
    (x = root ∧ anc x = [x]) ∨ ∃ p ∈ T, E p x ∧ anc x = x :: anc p ∧ x ∉ anc p := by
  by_cases hr : x = root
  · subst hr
    exact .inl ⟨rfl, h.anc_root hx⟩
  · exact .inr (h.step x hx hr)

theorem self_mem (h : DfsTree E root T anc) {x : V} (hx : x ∈ T) : x ∈ anc x := by
  rcases h.cases hx with ⟨-, ha⟩ | ⟨p, -, -, ha, -⟩ <;> simp [ha]

/-- Induction from the root down the tree. -/
theorem induction (h : DfsTree E root T anc) {P : V → Prop} (hroot : root ∈ T → anc root = [root] → P root)
    (hstep : ∀ x p, x ∈ T → p ∈ T → E p x → anc x = x :: anc p → x ∉ anc p → P p → P x) :
    ∀ x ∈ T, P x := by
  intro x
  generalize hn : (anc x).length = n
  induction n using Nat.strong_induction_on generalizing x with
  | _ n ih =>
    intro hx
    rcases h.cases hx with ⟨rfl, ha⟩ | ⟨p, hp, he, ha, hxp⟩
    · exact hroot hx ha
    · exact hstep x p hx hp he ha hxp (ih (anc p).length (by simp [← hn, ha]) p rfl hp)

/-- The ancestors of an ancestor are the rest of the list. -/
theorem suffix (h : DfsTree E root T anc) {x : V} (hx : x ∈ T) : ∀ y ∈ anc x, y ∈ T ∧ anc y <:+ anc x := by
  refine h.induction (P := fun x => ∀ y ∈ anc x, y ∈ T ∧ anc y <:+ anc x) ?_ ?_ x hx
  · intro hr ha y hy
    rw [ha, List.mem_singleton] at hy
    subst hy
    exact ⟨hr, List.suffix_rfl⟩
  · intro x p hx _ _ ha _ ih y hy
    rw [ha] at hy
    rcases List.mem_cons.mp hy with rfl | hy
    · exact ⟨hx, List.suffix_rfl⟩
    · obtain ⟨hyT, hsuf⟩ := ih y hy
      exact ⟨hyT, ha ▸ hsuf.trans (List.suffix_cons x _)⟩

theorem anc_mem (h : DfsTree E root T anc) {x y : V} (hx : x ∈ T) (hy : y ∈ anc x) : y ∈ T :=
  (h.suffix hx y hy).1

theorem nodup (h : DfsTree E root T anc) {x : V} (hx : x ∈ T) : (anc x).Nodup := by
  refine h.induction (P := fun x => (anc x).Nodup) (fun _ ha => by simp [ha]) ?_ x hx
  intro x p _ _ _ ha hxp ih
  rw [ha]
  exact List.nodup_cons.mpr ⟨hxp, ih⟩

theorem trans (h : DfsTree E root T anc) {x y z : V} (hx : x ∈ T) (hy : y ∈ anc x) (hz : z ∈ anc y) :
    z ∈ anc x := (h.suffix hx y hy).2.subset hz

theorem length_lt (h : DfsTree E root T anc) {x y : V} (hx : x ∈ T) (hy : y ∈ anc x) (hyx : y ≠ x) :
    (anc y).length < (anc x).length := by
  rcases h.cases hx with ⟨-, ha⟩ | ⟨p, hp, -, ha, -⟩
  · rw [ha, List.mem_singleton] at hy
    exact absurd hy hyx
  · rw [ha] at hy ⊢
    have hyp := (List.mem_cons.mp hy).resolve_left hyx
    exact Nat.lt_succ_of_le (h.suffix hp y hyp).2.length_le

theorem antisymm (h : DfsTree E root T anc) {x y : V} (hx : x ∈ T) (hy : y ∈ anc x) (hyx : x ∈ anc y) :
    y = x := by
  by_contra hne
  have h₁ := h.length_lt hx hy hne
  have h₂ := h.length_lt (h.anc_mem hx hy) hyx (Ne.symm hne)
  omega

/-- Two ancestors of one vertex: the one with the shorter list is the other's ancestor. -/
theorem anc_of_length_le (h : DfsTree E root T anc) {x y z : V} (hx : x ∈ T) (hy : y ∈ anc x)
    (hz : z ∈ anc x) (hle : (anc y).length ≤ (anc z).length) : y ∈ anc z :=
  (List.suffix_of_suffix_length_le (h.suffix hx y hy).2 (h.suffix hx z hz).2 hle).subset
    (h.self_mem (h.anc_mem hx hy))

theorem total (h : DfsTree E root T anc) {x y z : V} (hx : x ∈ T) (hy : y ∈ anc x) (hz : z ∈ anc x) :
    y ∈ anc z ∨ z ∈ anc y := by
  rcases le_total (anc y).length (anc z).length with hle | hle
  · exact .inl (h.anc_of_length_le hx hy hz hle)
  · exact .inr (h.anc_of_length_le hx hz hy hle)

/-- Down the tree: an ancestor reaches the vertex through the vertices between them. -/
theorem reachIn (h : DfsTree E root T anc) {x y : V} (hx : x ∈ T) (hy : y ∈ anc x) :
    ReachIn E {z | y ∈ anc z ∧ z ∈ anc x} y x := by
  revert hy
  refine h.induction (P := fun x => y ∈ anc x → ReachIn E {z | y ∈ anc z ∧ z ∈ anc x} y x) ?_ ?_ x hx
  · intro _ ha hy
    rw [ha, List.mem_singleton] at hy
    exact hy ▸ .refl _ _
  · intro x p hx hp he ha hxp ih hy
    by_cases hyx : y = x
    · exact hyx ▸ .refl _ _
    · have hyp : y ∈ anc p := by
        rw [ha] at hy
        exact (List.mem_cons.mp hy).resolve_left hyx
      have hpx : p ∈ anc x := by
        rw [ha]
        exact List.mem_cons_of_mem _ (h.self_mem hp)
      refine (ReachIn.mono ?_ (ih hyp)).trans (.single he ⟨hyp, hpx⟩ ⟨hy, h.self_mem hx⟩)
      exact fun z hz => ⟨hz.1, h.trans hx hpx hz.2⟩

theorem root_mem (h : DfsTree E root T anc) {x : V} (hx : x ∈ T) : root ∈ anc x := by
  refine h.induction (P := fun x => root ∈ anc x) (fun _ ha => by simp [ha]) ?_ x hx
  intro x p _ _ _ ha _ ih
  simp [ha, ih]

/-- Every dominator is an ancestor. -/
theorem mem_of_dominates (h : DfsTree E root T anc) {x d : V} (hx : x ∈ T) (hd : Dominates E root d x) :
    d ∈ anc x := by
  have hroot := h.root_mem hx
  by_contra hdx
  rcases dominates_iff.mp hd with rfl | hn
  · exact hdx hroot
  · exact hn ((h.reachIn hx hroot).mono fun z hz (hzd : z = d) => hdx (hzd ▸ hz.2))

/-- A new vertex below `p`. -/
theorem insert [DecidableEq V] (h : DfsTree E root T anc) {x p : V} (hx : x ∉ T) (hp : p ∈ T) (he : E p x)
    (hxr : x ≠ root) : DfsTree E root (Set.insert x T) (Function.update anc x (x :: anc p)) where
  anc_root hr := by
    rw [Function.update_of_ne (Ne.symm hxr)]
    exact h.anc_root (hr.resolve_left (Ne.symm hxr))
  step y hy hyr := by
    by_cases hyx : y = x
    · subst hyx
      have hpy : p ≠ y := fun hpy => hx (hpy ▸ hp)
      refine ⟨p, .inr hp, he, ?_, ?_⟩
      · rw [Function.update_self, Function.update_of_ne hpy]
      · rw [Function.update_of_ne hpy]
        exact fun hm => hx (h.anc_mem hp hm)
    · obtain ⟨q, hq, heq, ha, hnq⟩ := h.step y (hy.resolve_left hyx) hyr
      have hqx : q ≠ x := fun hqx => hx (hqx ▸ hq)
      refine ⟨q, .inr hq, heq, ?_, ?_⟩
      · rw [Function.update_of_ne hyx, Function.update_of_ne hqx, ha]
      · rwa [Function.update_of_ne hqx]

end DfsTree

/-- The order `pre` in which the search enters the vertices: what is entered between a vertex and
one of its descendants is a descendant as well, and an edge to a vertex entered later goes to a
descendant. -/
structure DfsOrder (E : V → V → Prop) (T : Set V) (anc : V → List V) (pre : V → ℕ) : Prop where
  between : ∀ x ∈ T, ∀ a ∈ anc x, ∀ z ∈ T, pre a ≤ pre z → pre z ≤ pre x → a ∈ anc z
  edge : ∀ x ∈ T, ∀ y, E x y → y ∈ T ∧ (pre y ≤ pre x ∨ x ∈ anc y)

/-- What is reached from a vertex without entering anything older is below the vertex. -/
theorem DfsOrder.mem_anc_of_reachIn {pre : V → ℕ} (h : DfsOrder E T anc pre) (ht : DfsTree E root T anc)
    {a y : V} (ha : a ∈ T) (hr : ReachIn E {z | pre a ≤ pre z} a y) : a ∈ anc y ∧ y ∈ T := by
  induction hr with
  | refl => exact ⟨ht.self_mem ha, ha⟩
  | @tail x y _ he ih =>
    obtain ⟨hyT, hy⟩ := h.edge x ih.2 y he.1
    refine ⟨?_, hyT⟩
    rcases hy with hle | hmem
    · exact h.between x ih.2 a ih.1 y hyT he.2.2 hle
    · exact ht.trans hyT hmem ih.1

end FlowGraph
