import Mathlib.Tactic

/-!
# Depth-first search

The search of a graph whose vertices have ordered lists of children, as a relation: what is
visited before and after, the vertices still to be searched and the order in which the
search leaves them.

An iterative search keeps a stack that holds the vertices it is in and, above each, those of
its children that are left (`Zip`). A round takes off a child that is visited (`Zip.skip`),
enters one (`Zip.enter`), or leaves a vertex without children left (`Zip.leave`); when the
stack is empty the search is done.
-/

namespace DepthFirst

variable {V : Type*}

/-- `Search kids vis todo vis' post`: searching `todo` with `vis` visited leaves the vertices
of `post`, in this order, with `vis'` visited. -/
inductive Search (kids : V → List V) : List V → List V → List V → List V → Prop where
  | nil (vis : List V) : Search kids vis [] vis []
  | skip {v : V} {vis todo vis' post : List V} (hv : v ∈ vis) (h : Search kids vis todo vis' post) :
      Search kids vis (v :: todo) vis' post
  | visit {v : V} {vis todo vis₁ vis₂ post₁ post₂ : List V} (hv : v ∉ vis)
      (h₁ : Search kids (v :: vis) (kids v) vis₁ post₁) (h₂ : Search kids vis₁ todo vis₂ post₂) :
      Search kids vis (v :: todo) vis₂ (post₁ ++ v :: post₂)

namespace Search

variable {kids : V → List V}

theorem subset {vis todo vis' post : List V} (h : Search kids vis todo vis' post) : vis ⊆ vis' := by
  induction h with
  | nil => exact List.Subset.refl _
  | skip _ _ ih => exact ih
  | visit _ _ _ ih₁ ih₂ => exact fun x hx => ih₂ (ih₁ (List.mem_cons_of_mem _ hx))

/-- One search after the other. -/
theorem append {vis todo₁ vis₁ post₁ todo₂ vis₂ post₂ : List V} (h₁ : Search kids vis todo₁ vis₁ post₁)
    (h₂ : Search kids vis₁ todo₂ vis₂ post₂) : Search kids vis (todo₁ ++ todo₂) vis₂ (post₁ ++ post₂) := by
  induction h₁ with
  | nil => exact h₂
  | skip hv _ ih => exact .skip hv (ih h₂)
  | @visit v _ _ _ _ p₁ p₂ hv hin _ _ ih =>
    rw [List.cons_append, List.append_assoc, List.cons_append]
    exact .visit hv hin (ih h₂)

/-- Children that are visited from the start may be left out. -/
theorem of_filter {w : V → Prop} [DecidablePred w] {vis todo vis' post : List V} (hw : ∀ v, ¬ w v → v ∈ vis)
    (h : Search kids vis (todo.filter w) vis' post) : Search kids vis todo vis' post := by
  induction todo generalizing vis post with
  | nil => exact h
  | cons v todo ih =>
    by_cases hv : w v
    · rw [List.filter_cons_of_pos (by simpa using hv)] at h
      cases h with
      | skip hm h => exact .skip hm (ih hw h)
      | visit hm h₁ h₂ =>
        exact .visit hm h₁ (ih (fun u hu => h₁.subset (List.mem_cons_of_mem _ (hw u hu))) h₂)
    · rw [List.filter_cons_of_neg (by simpa using hv)] at h
      exact .skip (hw v hv) (ih hw h)

/-- The search is a function of what it starts from. -/
theorem unique {vis todo vis₁ post₁ vis₂ post₂ : List V} (h₁ : Search kids vis todo vis₁ post₁)
    (h₂ : Search kids vis todo vis₂ post₂) : vis₁ = vis₂ ∧ post₁ = post₂ := by
  induction h₁ generalizing vis₂ post₂ with
  | nil =>
    cases h₂
    exact ⟨rfl, rfl⟩
  | skip hv _ ih =>
    cases h₂ with
    | skip _ h => exact ih h
    | visit hv' _ _ => exact absurd hv hv'
  | visit hv _ _ ih₁ ih₂ =>
    cases h₂ with
    | skip hv' _ => exact absurd hv' hv
    | visit _ ha hb =>
      obtain ⟨rfl, rfl⟩ := ih₁ ha
      obtain ⟨rfl, rfl⟩ := ih₂ hb
      exact ⟨rfl, rfl⟩

end Search

/-- The stack of an iterative search from `root`, top first, with the vertices it is in, the last one
first, what is visited, and what has been left. Of the children of a vertex, those are pushed that
are not visited when it is entered. -/
inductive Zip [DecidableEq V] (kids : V → List V) (root : V) : List V → List V → List V → List V → Prop where
  | base {done pending vis post : List V} (hk : done ++ pending = [root]) (h : Search kids [] done vis post) :
      Zip kids root [] pending vis post
  | level {path st vis₀ post₀ done pending vis post : List V} {g : V}
    (hz : Zip kids root path (g :: st) vis₀ post₀)
      (hg : g ∉ vis₀) (hk : done ++ pending = (kids g).filter (· ∉ g :: vis₀))
      (h : Search kids (g :: vis₀) done vis post) :
      Zip kids root (g :: path) (pending ++ g :: st) vis (post₀ ++ post)

namespace Zip

variable [DecidableEq V] {kids : V → List V} {root : V} {path st vis post : List V}

theorem init : Zip kids root [] [root] [] [] := @Zip.base _ _ _ _ [] _ _ _ rfl (.nil _)

/-- A child on top that is visited is done with. -/
theorem skip {c : V} (h : Zip kids root path (c :: st) vis post) (hc : c ∈ vis) (hp : c ∉ path) :
    Zip kids root path st vis post := by
  generalize hs : c :: st = s at h
  cases h with
  | @base done _ _ _ hk hd =>
    subst hs
    have := hd.append (.skip hc (.nil vis))
    rw [List.append_nil] at this
    exact .base (by rw [List.append_assoc]; exact hk) this
  | @level path' st' vis₀ post₀ done pending _ post g hz hg hk hd =>
    cases pending with
    | nil =>
      obtain ⟨rfl, -⟩ := List.cons_eq_cons.mp hs
      exact absurd List.mem_cons_self hp
    | cons d pending =>
      obtain ⟨rfl, rfl⟩ := List.cons_eq_cons.mp hs
      have := hd.append (.skip hc (.nil vis))
      rw [List.append_nil] at this
      exact .level hz hg (by rw [List.append_assoc]; exact hk) this

/-- A new vertex on top is entered: its children go above it. -/
theorem enter {c : V} (h : Zip kids root path (c :: st) vis post) (hc : c ∉ vis) :
    Zip kids root (c :: path) ((kids c).filter (· ∉ c :: vis) ++ c :: st) (c :: vis) post := by
  have := @Zip.level _ _ _ _ _ _ _ _ [] _ _ _ _ h hc rfl (.nil _)
  rwa [List.append_nil] at this

/-- The vertex on top, with no children left, is left. -/
theorem leave {c : V} (h : Zip kids root (c :: path) (c :: st) vis post)
    (hc : c ∉ path) : Zip kids root path st vis (post ++ [c]) := by
  generalize hs : c :: st = s at h
  cases h with
  | @level _ st' vis₀ post₀ done pending _ post _ hz hg hk hd =>
    cases pending with
    | cons d pending =>
      -- a pending child is none of those that are being searched
      obtain ⟨rfl, -⟩ := List.cons_eq_cons.mp hs
      have : c ∈ (kids c).filter (· ∉ c :: vis₀) := by
        rw [← hk]
        simp
      simp at this
    | nil =>
      obtain ⟨-, rfl⟩ := List.cons_eq_cons.mp hs
      rw [List.append_nil] at hk
      subst hk
      have hall : Search kids (c :: vis₀) (kids c) vis post := hd.of_filter fun v hv => not_not.mp hv
      have hsearch : Search kids vis₀ [c] vis (post ++ [c]) := .visit hg hall (.nil _)
      rw [List.append_assoc]
      generalize hs' : c :: st = s' at hz
      cases hz with
      | @base done' _ _ _ hk' hd' =>
        subst hs'
        exact .base (by rw [List.append_assoc]; exact hk') (hd'.append hsearch)
      | @level path' st'' vis₁ post₁ done' pending' _ post' g hz' hg' hk' hd' =>
        cases pending' with
        | nil =>
          obtain ⟨rfl, -⟩ := List.cons_eq_cons.mp hs'
          exact absurd List.mem_cons_self hc
        | cons d pending' =>
          obtain ⟨rfl, rfl⟩ := List.cons_eq_cons.mp hs'
          rw [List.append_assoc]
          exact .level hz' hg' (by rw [List.append_assoc]; exact hk') (hd'.append hsearch)

/-- With an empty stack the search is done. -/
theorem search (h : Zip kids root path [] vis post) : Search kids [] [root] vis post := by
  generalize hs : ([] : List V) = s at h
  cases h with
  | base hk hd =>
    subst hs
    rw [List.append_nil] at hk
    exact hk ▸ hd
  | level => simp at hs

end Zip

end DepthFirst
