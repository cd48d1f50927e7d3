import Tpde.Library.Bytes

/-!
# Lists through memory

A list of blocks, each of which has the address of the next one in a word at a fixed offset;
the last one has 0 there. Only these words matter (`Linked.congr`); blocks are put in front and
taken from there.
-/

namespace FreeList

open Bytes

/-- The blocks that a list goes through, from its head on. -/
def Linked (m : Mem) (off : ℕ) : ℕ → List ℕ → Prop
  | head, [] => head = 0
  | head, a :: as => head = a ∧ a ≠ 0 ∧ Linked m off (m.loadNat (a + off) 8) as

variable {m m' : Mem} {off head a : ℕ} {as : List ℕ}

/-- The words of the blocks are all that matters. -/
theorem Linked.congr (h : Linked m off head as)
    (heq : ∀ a ∈ as, m'.loadNat (a + off) 8 = m.loadNat (a + off) 8) :
    Linked m' off head as := by
  induction as generalizing head with
  | nil => exact h
  | cons a as ih =>
    obtain ⟨rfl, hne, htail⟩ := h
    obtain ⟨hfirst, hrest⟩ := List.forall_mem_cons.mp heq
    refine ⟨rfl, hne, ?_⟩
    rw [hfirst]
    exact ih htail hrest

/-- A block is put in front. -/
theorem Linked.push (h : Linked m off head as) (hne : a ≠ 0) (hlink : m'.loadNat (a + off) 8 = head)
    (heq : ∀ a ∈ as, m'.loadNat (a + off) 8 = m.loadNat (a + off) 8) : Linked m' off a (a :: as) := by
  refine ⟨rfl, hne, ?_⟩
  rw [hlink]
  exact h.congr heq

/-- The first block is taken. -/
theorem Linked.pop (h : Linked m off head as) (hne : head ≠ 0) :
    ∃ as', as = head :: as' ∧ Linked m off (m.loadNat (head + off) 8) as' := by
  cases as with
  | nil => exact absurd h hne
  | cons a as =>
    obtain ⟨rfl, -, htail⟩ := h
    exact ⟨as, rfl, htail⟩

end FreeList
