import Tpde.Library.FlowGraph
import Mathlib.Tactic

/-!
# Reverse post-orders

What a list of vertices has to satisfy to be the reverse of the order in which
some depth-first search leaves them (`RevPostOrder`), said without the search: a
vertex goes in front of a list when what the search found below it is a prefix
of the list (`pre`), and no vertex left before it was entered (`suf`) has an
edge to it. Its use is `RevPostOrder.retreat`: an edge that goes back in the
list, from position `i` to `j ≤ i`, makes everything between the two reachable
from `j` without going in front of `j`.
-/

namespace FlowGraph

variable {V : Type*} {E : V → V → Prop}

/-- The list is a reverse post-order. -/
inductive RevPostOrder (E : V → V → Prop) : List V → Prop where
  | nil : RevPostOrder E []
  | cons {t : V} {pre suf : List V} (h : RevPostOrder E (pre ++ suf)) (ht : t ∉ pre ++ suf)
      (hpre : ∀ z ∈ pre, ReachIn E {x | x = t ∨ x ∈ pre} t z) (hsuf : ∀ x ∈ suf, ¬ E x t) :
      RevPostOrder E (t :: (pre ++ suf))

theorem RevPostOrder.nodup {l : List V} (h : RevPostOrder E l) : l.Nodup := by
  induction h with
  | nil => exact List.nodup_nil
  | cons _ ht _ _ ih => exact List.nodup_cons.mpr ⟨ht, ih⟩

/-- An edge from `x` back to `y` makes what stands between them reachable from `y`, without
going in front of `y`. -/
theorem RevPostOrder.retreat {l : List V} (h : RevPostOrder E l) {i j k : ℕ} {x y z : V} (hjk : j ≤ k)
    (hki : k ≤ i) (hx : l[i]? = some x) (hy : l[j]? = some y) (hz : l[k]? = some z) (he : E x y) :
    ReachIn E {v | v ∈ l.drop j} y z := by
  induction h generalizing i j k with
  | nil => simp at hx
  | @cons t pre suf h ht hpre hsuf ih =>
    cases j with
    | succ j =>
      obtain ⟨k, rfl⟩ : ∃ k', k = k' + 1 := ⟨k - 1, by omega⟩
      obtain ⟨i, rfl⟩ : ∃ i', i = i' + 1 := ⟨i - 1, by omega⟩
      simp only [List.getElem?_cons_succ] at hx hy hz
      exact ih (Nat.le_of_succ_le_succ hjk) (Nat.le_of_succ_le_succ hki) hx hy hz
    | zero =>
      obtain rfl : t = y := by simpa using hy
      cases k with
      | zero =>
        obtain rfl : t = z := by simpa using hz
        exact .refl _ _
      | succ k =>
        obtain ⟨i, rfl⟩ : ∃ i', i = i' + 1 := ⟨i - 1, by omega⟩
        simp only [List.getElem?_cons_succ] at hx hz
        -- the source of the edge, and so `z`, was left while `t` was being searched
        have hi : i < pre.length := by
          by_contra hge
          rw [List.getElem?_append_right (by omega)] at hx
          exact hsuf _ (List.mem_of_getElem? hx) he
        rw [List.getElem?_append_left (by omega)] at hz
        refine (hpre z (List.mem_of_getElem? hz)).mono fun v hv => ?_
        rcases hv with rfl | hv
        · simp
        · simp [hv]

end FlowGraph
