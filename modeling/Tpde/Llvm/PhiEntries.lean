import Mathlib
import Tpde.Library.HeapSort

/-!
# The entries of large phis

`switch_func` of the LLVM adaptor sorts the entries of a phi with many of them by their blocks
(`sort_phi_entries`), and `incoming_val_for_block` then searches by halves. The sort moves each value
with its block, it ends in order, and the search returns what the linear search over the original
entries does (`sortPhiEntries_correct`).
-/

namespace Tpde.Llvm

open HeapSort

/-- A phi of `n` entries: the incoming blocks, by their addresses, and the uses of the values. An LLVM
value has less than 2^27 operands, so that the 32-bit indices do not wrap around. -/
structure PHINode (κ ν : Type*) (n : ℕ) where
  blocks : Fin n → κ
  values : Fin n → ν

namespace PHINode

variable {κ ν : Type*} {n : ℕ}

/-! ### The model -/

/-- `swap` of `sort_phi_entries`, in both lists. -/
def swap (phi : PHINode κ ν n) (a b : Fin n) : PHINode κ ν n where
  values := phi.values ∘ Equiv.swap a b
  blocks := phi.blocks ∘ Equiv.swap a b

variable [LinearOrder κ]

/-- The child of `root` with the higher block. -/
def largerChild (phi : PHINode κ ν n) {stop : ℕ} (hstop : stop ≤ n) (root : ℕ)
    (h : 2 * root + 1 < stop) : Fin n :=
  let child : Fin n := ⟨2 * root + 1, by omega⟩
  if h : child.val + 1 < stop then
    if phi.blocks child < phi.blocks ⟨child.val + 1, by omega⟩ then ⟨child.val + 1, by omega⟩ else child
  else child

theorem isChild_largerChild (phi : PHINode κ ν n) {stop : ℕ} (hstop : stop ≤ n) (root : ℕ)
    (h : 2 * root + 1 < stop) :
    IsChild root (phi.largerChild hstop root h) ∧ (phi.largerChild hstop root h).val < stop := by
  unfold largerChild
  dsimp only
  split_ifs
  · exact ⟨.inr rfl, by assumption⟩
  · exact ⟨.inl rfl, h⟩
  · exact ⟨.inl rfl, h⟩

/-- The inner loop of `sort_phi_entries`: the entry at `root` sinks. -/
def siftDown (phi : PHINode κ ν n) {stop : ℕ} (hstop : stop ≤ n) (root : ℕ) : PHINode κ ν n :=
  if h : 2 * root + 1 < stop then
    let child := phi.largerChild hstop root h
    if phi.blocks ⟨root, by omega⟩ < phi.blocks child then
      (phi.swap ⟨root, by omega⟩ child).siftDown hstop child
    else phi
  else phi
termination_by stop - root
decreasing_by
  have hchild := (phi.isChild_largerChild hstop root h).1.lt
  omega

/-- The outer loop of `sort_phi_entries`, from `start` and `end`. -/
def heapSort (phi : PHINode κ ν n) (start : ℕ) {stop : ℕ} (hstop : stop ≤ n) : PHINode κ ν n :=
  if h : 1 < stop then
    if start ≠ 0 then (phi.siftDown hstop (start - 1)).heapSort (start - 1) hstop
    else
      have hlast : stop - 1 ≤ n := by omega
      ((phi.swap ⟨0, by omega⟩ ⟨stop - 1, by omega⟩).siftDown hlast 0).heapSort 0 hlast
  else phi
termination_by start + stop

/-- `sort_phi_entries`. -/
def sortPhiEntries (phi : PHINode κ ν n) : PHINode κ ν n := phi.heapSort (n / 2) le_rfl

def phiNodeSortThreshold : ℕ := 1024

/-- What `switch_func` does to a phi, after the fixups. -/
def prepare (phi : PHINode κ ν n) : PHINode κ ν n := if phiNodeSortThreshold ≤ n then
    phi.sortPhiEntries else phi

/-- `getBasicBlockIndex`, the linear search. -/
def getBasicBlockIndex (phi : PHINode κ ν n) (bb : κ) : Option (Fin n) :=
  (List.finRange n).find? (phi.blocks · = bb)

/-- `getIncomingValueForBlock`. -/
def getIncomingValueForBlock (phi : PHINode κ ν n) (bb : κ) : Option ν :=
  (phi.getBasicBlockIndex bb).map phi.values

/-- `getIncomingValue`. -/
def getIncomingValue (phi : PHINode κ ν n) (idx : ℕ) : Option ν :=
  if h : idx < n then some (phi.values ⟨idx, h⟩) else none

/-- The search by halves of `incoming_val_for_block`, with its assertion. -/
def sortedVal [DecidableEq ν] (phi : PHINode κ ν n) (bb : κ) : Option ν :=
  let val := phi.getIncomingValue (lowerBound phi.blocks bb 0 n (Nat.zero_add n).le)
  if val = phi.getIncomingValueForBlock bb then val else none

/-- `incoming_val_for_block`. -/
def incomingValForBlock {IRBlockRef : Type*} [DecidableEq ν] (blocks : IRBlockRef → κ)
    (phi : PHINode κ ν n) (block : IRBlockRef) :
    Option ν :=
  if n < phiNodeSortThreshold then phi.getIncomingValueForBlock (blocks block)
    else phi.sortedVal (blocks block)

/-! ### The sort -/

/-- The entries in another order. -/
def permute (phi : PHINode κ ν n) (σ : Equiv.Perm (Fin n)) : PHINode κ ν n where
  blocks := phi.blocks ∘ σ
  values := phi.values ∘ σ

variable {phi : PHINode κ ν n} {start stop root : ℕ}

theorem le_largerChild (hstop : stop ≤ n) (h : 2 * root + 1 < stop) (c : Fin n) (hc : c.val < stop)
    (hchild : IsChild root c) :
    phi.blocks c ≤ phi.blocks (phi.largerChild hstop root h) := by
  unfold largerChild
  dsimp only
  rcases hchild with hleft | hright
  · rw [show c = ⟨2 * root + 1, by omega⟩ from Fin.ext hleft]
    split_ifs with hlt hbelow
    · exact hbelow.le
    · exact le_rfl
    · exact le_rfl
  · rw [show c = ⟨2 * root + 1 + 1, by omega⟩ from Fin.ext hright, dif_pos (by omega)]
    split_ifs with hbelow
    · exact le_rfl
    · exact not_lt.mp hbelow

/-- **The inner loop** moves entries below the end only, and makes a heap of one with a wrong top. -/
theorem siftDown_spec (hstop : stop ≤ n) (hroot : root < n) (hstart : start ≤ root)
    (h : HeapBut phi.blocks start stop ⟨root, hroot⟩) :
    ∃ σ, phi.siftDown hstop root = phi.permute σ ∧ Fixes σ stop ∧ Heap (phi.permute σ).blocks start stop := by
  induction hm : stop - root using Nat.strong_induction_on generalizing phi root with
  | _ m ih =>
    rw [siftDown]
    split
    case isTrue hlt =>
      obtain ⟨hchild, hbelow⟩ := phi.isChild_largerChild hstop root hlt
      have hmax := phi.le_largerChild hstop hlt
      dsimp only
      split
      case isTrue hsink =>
        have hdown := hchild.lt
        have hbut : HeapBut (phi.swap ⟨root, hroot⟩ (phi.largerChild hstop root hlt)).blocks start stop
          (phi.largerChild hstop root hlt) :=
          h.swap hstart hchild hmax hsink hbelow
        obtain ⟨σ, hσ, hfix, hheap⟩ := ih (stop - (phi.largerChild hstop root hlt).val) (by omega)
          (phi.largerChild hstop root hlt).isLt (by omega) hbut rfl
        refine ⟨Equiv.swap ⟨root, hroot⟩ (phi.largerChild hstop root hlt) * σ, hσ, ?_, hheap⟩
        exact Fixes.mul (.swap (by dsimp only; omega) hbelow) hfix
      case isFalse hstay =>
        refine ⟨1, rfl, .refl, h.heap_of_le fun c hc hcc => ?_⟩
        exact (hmax c hc hcc).trans (not_lt.mp hstay)
    case isFalse hleaf =>
      refine ⟨1, rfl, .refl, h.heap_of_le fun c hc hcc => ?_⟩
      unfold IsChild at hcc
      dsimp only at hcc
      omega

/-- **The outer loop** keeps a heap in front of a sorted end. -/
theorem heapSort_spec (hstop : stop ≤ n) (hheap : Heap phi.blocks start stop)
    (htail : Tail phi.blocks stop) (hhalf : start < n ∨ start = 0) :
    ∃ σ, phi.heapSort start hstop = phi.permute σ ∧ Monotone (phi.permute σ).blocks := by
  induction hm : start + stop using Nat.strong_induction_on generalizing phi start stop with
  | _ m ih =>
    rw [heapSort]
    split
    case isTrue hmore =>
      split
      case isTrue hbuild =>
        -- The next entry sinks into the heap.
        have hroot : start - 1 < n := by omega
        have hbut : HeapBut phi.blocks (start - 1) stop ⟨start - 1, hroot⟩ :=
          Heap.heapBut (by rwa [Nat.sub_one_add_one hbuild]) rfl
        obtain ⟨σ, hσ, hfix, hheap'⟩ := siftDown_spec hstop hroot le_rfl hbut
        rw [hσ]
        obtain ⟨τ, hτ, hsorted⟩ :=
          ih (start - 1 + stop) (by omega) hstop hheap' (htail.permute hfix) (by omega) rfl
        exact ⟨σ * τ, hτ, hsorted⟩
      case isFalse htake =>
        -- The top goes to the end, and what comes for it sinks.
        obtain rfl : start = 0 := not_not.mp htake
        have htail' : Tail (phi.swap ⟨0, by omega⟩ ⟨stop - 1, by omega⟩).blocks (stop - 1) :=
          htail.swap hheap rfl (by dsimp only; omega)
        have hbut : HeapBut (phi.swap ⟨0, by omega⟩ ⟨stop - 1, by omega⟩).blocks 0 (stop - 1) ⟨0, by omega⟩ :=
          hheap.replaced rfl (by omega) fun i hi hlt =>
            congrArg phi.blocks (Equiv.swap_apply_of_ne_of_ne hi (by rintro rfl; dsimp only at hlt; omega))
        obtain ⟨σ, hσ, hfix, hheap'⟩ := siftDown_spec (by omega) (by omega) le_rfl hbut
        dsimp only
        rw [hσ]
        obtain ⟨τ, hτ, hsorted⟩ :=
          ih (0 + (stop - 1)) (by omega) (by omega) hheap' (htail'.permute hfix) (.inr rfl) rfl
        exact ⟨Equiv.swap (⟨0, by omega⟩ : Fin n) ⟨stop - 1, by omega⟩ * σ * τ, hτ, hsorted⟩
    case isFalse hdone => exact ⟨1, rfl, htail.monotone (by omega)⟩

theorem sortPhiEntries_spec (phi : PHINode κ ν n) :
    ∃ σ, phi.sortPhiEntries = phi.permute σ ∧ Monotone phi.sortPhiEntries.blocks := by
  have hheap : Heap phi.blocks (n / 2) n := heap_of_half (by omega)
  obtain ⟨σ, hσ, hsorted⟩ := heapSort_spec le_rfl hheap tail_end (by omega)
  refine ⟨σ, hσ, ?_⟩
  rw [sortPhiEntries, hσ]
  exact hsorted

/-! ### The search -/

/-- The entries of a block carry one value. -/
def Valid (phi : PHINode κ ν n) : Prop := ∀ i j, phi.blocks i = phi.blocks j → phi.values i = phi.values j

omit [LinearOrder κ] in
theorem Valid.permute (h : phi.Valid) (σ : Equiv.Perm (Fin n)) : (phi.permute σ).Valid :=
  fun i j hij => h (σ i) (σ j) hij

/-- The linear search finds the value of any entry of the block. -/
theorem Valid.getIncomingValueForBlock (h : phi.Valid) (i : Fin n) :
    phi.getIncomingValueForBlock (phi.blocks i) = some (phi.values i) := by
  rw [PHINode.getIncomingValueForBlock, getBasicBlockIndex]
  cases hfind : (List.finRange n).find? (phi.blocks · = phi.blocks i) with
  | none => exact absurd (List.find?_eq_none.mp hfind i (List.mem_finRange i)) (by simp)
  | some j =>
    have hj := List.find?_some hfind
    rw [decide_eq_true_eq] at hj
    rw [Option.map_some, h j i hj]

/-- So does the search by halves, if the entries are in order. -/
theorem Valid.sortedVal [DecidableEq ν] (h : phi.Valid) (hsorted : Monotone phi.blocks) (i : Fin n) :
    phi.sortedVal (phi.blocks i) = some (phi.values i) := by
  obtain ⟨hlt, heq⟩ := exists_lowerBound hsorted (i := i)
  have hval : phi.getIncomingValue (lowerBound phi.blocks (phi.blocks i) 0 n (by omega)) =
    some (phi.values i) := by
    rw [getIncomingValue, dif_pos hlt, h _ i heq]
  rw [PHINode.sortedVal, hval, h.getIncomingValueForBlock, if_pos rfl]

/-- **Sorted phis.** The entries are permuted as pairs and are in order of the blocks; for each block
that occurs, the search by halves passes its assertion and returns the value that a linear search over
the original entries does, and so does `incoming_val_for_block` for a phi that `switch_func` has
prepared. -/
theorem sortPhiEntries_correct {IRBlockRef : Type*} [DecidableEq ν] (phi : PHINode κ ν n)
    (hvalid : phi.Valid) :
    (∃ σ : Equiv.Perm (Fin n), ∀ i, phi.sortPhiEntries.blocks i = phi.blocks (σ i) ∧
      phi.sortPhiEntries.values i = phi.values (σ i)) ∧
      Monotone phi.sortPhiEntries.blocks ∧
      (∀ bb ∈ Set.range phi.blocks, ∃ val, phi.getIncomingValueForBlock bb = some val ∧
        phi.sortPhiEntries.sortedVal bb = some val) ∧
      ∀ (blocks : IRBlockRef → κ) (block : IRBlockRef), blocks block ∈ Set.range phi.blocks →
        phi.prepare.incomingValForBlock blocks block = phi.getIncomingValueForBlock (blocks block) := by
  obtain ⟨σ, hσ, hsorted⟩ := phi.sortPhiEntries_spec
  have hvalid' : phi.sortPhiEntries.Valid := hσ ▸ hvalid.permute σ
  have hsearch (i : Fin n) : phi.sortPhiEntries.sortedVal (phi.blocks i) = some (phi.values i) := by
    have hfound := hvalid'.sortedVal hsorted (σ.symm i)
    have hblock : phi.sortPhiEntries.blocks (σ.symm i) = phi.blocks i := by
      rw [hσ]
      exact congrArg phi.blocks (σ.apply_symm_apply i)
    have hvalue : phi.sortPhiEntries.values (σ.symm i) = phi.values i := by
      rw [hσ]
      exact congrArg phi.values (σ.apply_symm_apply i)
    rwa [hblock, hvalue] at hfound
  refine ⟨⟨σ, fun i => by rw [hσ]; exact ⟨rfl, rfl⟩⟩, hsorted, ?_, ?_⟩
  · rintro bb ⟨i, rfl⟩
    exact ⟨phi.values i, hvalid.getIncomingValueForBlock i, hsearch i⟩
  · rintro blocks block ⟨i, hi⟩
    rw [incomingValForBlock, prepare, ← hi]
    split
    case isTrue hsmall => rw [if_neg (by omega)]
    case isFalse hlarge => rw [if_pos (by omega), hsearch, hvalid.getIncomingValueForBlock]

/-- A block twice and another one. -/
theorem sortPhiEntries_correct_multiEdge :
    Monotone (sortPhiEntries { blocks := ![20, 10, 20], values := ![7, 8, 7] : PHINode ℕ ℕ 3 }).blocks :=
  (sortPhiEntries_correct
    { blocks := ![20, 10, 20], values := ![7, 8, 7] } (by unfold Valid; decide) :
    _ ∧ _ ∧ _ ∧ ∀ (_ : ℕ → ℕ) (_ : ℕ), _).2.1

end PHINode

end Tpde.Llvm
