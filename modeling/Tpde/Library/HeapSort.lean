import Mathlib.Tactic
import Mathlib.GroupTheory.Perm.Basic

/-!
# Sorting with a heap, and searching what is sorted

Keys at the places `0, .., n - 1`, of which a swap exchanges two. The order that a heap sort keeps on
its way: the heap (`Heap`), the heap while one key sinks in it (`HeapBut`), and the end that is sorted
already (`Tail`). `lowerBound` is the search by halves, right on keys in order (`lowerBound_spec`).
-/

namespace HeapSort

variable {n : ℕ} {κ : Type*}

/-! ### Places -/

/-- A place and one of the two below it. -/
def IsChild (p c : ℕ) : Prop := c = 2 * p + 1 ∨ c = 2 * p + 2

theorem IsChild.lt {p c : ℕ} (h : IsChild p c) : p < c := by
  unfold IsChild at h
  omega

theorem IsChild.parent_eq {p q c : ℕ} (hp : IsChild p c) (hq : IsChild q c) : p = q := by
  unfold IsChild at hp hq
  omega

/-- A permutation that moves only places below a bound. -/
def Fixes (σ : Equiv.Perm (Fin n)) (stop : ℕ) : Prop := ∀ i, stop ≤ i.val → σ i = i

namespace Fixes

variable {σ τ : Equiv.Perm (Fin n)} {stop stop' : ℕ}

theorem refl : Fixes (1 : Equiv.Perm (Fin n)) stop := fun _ _ => rfl

theorem swap {a b : Fin n} (ha : a.val < stop) (hb : b.val < stop) : Fixes (Equiv.swap a b) stop :=
  fun i hi => Equiv.swap_apply_of_ne_of_ne (by rintro rfl; omega) (by rintro rfl; omega)

theorem mul (hσ : Fixes σ stop) (hτ : Fixes τ stop) : Fixes (σ * τ) stop := fun i hi => by
  rw [Equiv.Perm.mul_apply, hτ i hi, hσ i hi]

theorem mono (hσ : Fixes σ stop) (hle : stop ≤ stop') : Fixes σ stop' := fun i hi => hσ i (hle.trans hi)

/-- The places below the bound stay there. -/
theorem lt (hσ : Fixes σ stop) {i : Fin n} (hi : i.val < stop) : (σ i).val < stop := by
  by_contra hge
  have hfix : σ (σ i) = σ i := hσ _ (not_lt.mp hge)
  rw [σ.injective hfix] at hge
  exact hge hi

end Fixes

/-! ### Heaps -/

variable [LinearOrder κ] {f : Fin n → κ} {start stop : ℕ}

/-- From `start` on, and below `stop`, no key is above that of the place over it. -/
def Heap (f : Fin n → κ) (start stop : ℕ) : Prop := ∀ p c : Fin n, start ≤ p.val → c.val < stop →
    IsChild p c → f c ≤ f p

/-- A heap but at `root`, whose key may be too low for its place. -/
structure HeapBut (f : Fin n → κ) (start stop : ℕ) (root : Fin n) : Prop where
  heap : ∀ p c : Fin n, p ≠ root → start ≤ p.val → c.val < stop → IsChild p c → f c ≤ f p
  skip : ∀ p c : Fin n, start ≤ p.val → c.val < stop → IsChild p root → IsChild root c → f c ≤ f p

/-- From `stop` on no key is below one before it. -/
def Tail (f : Fin n → κ) (stop : ℕ) : Prop := ∀ i j : Fin n, i ≤ j → stop ≤ j.val → f i ≤ f j

/-- The places of the lower half have none below them. -/
theorem heap_of_half (h : n ≤ 2 * start + 1) : Heap f start stop := by
  intro p c hp _ hchild
  have hc := c.isLt
  unfold IsChild at hchild
  omega

/-- One more place on top of a heap. -/
theorem Heap.heapBut {root : Fin n} (h : Heap f (start + 1) stop) (hroot : root.val = start) :
    HeapBut f start stop root where
  heap p c hne hp hc hchild := h p c (by have := Fin.val_ne_of_ne hne; omega) hc hchild
  skip p c hp _ hchild _ := absurd hchild.lt (by omega)

/-- The heap where the key on top, and one that does not belong to it any more, were replaced. -/
theorem Heap.replaced {g : Fin n → κ} {root : Fin n} (h : Heap f 0 stop) (hroot : root.val = 0)
    {stop' : ℕ} (hle : stop' ≤ stop)
    (heq : ∀ i : Fin n, i ≠ root → i.val < stop' → g i = f i) : HeapBut g 0 stop' root where
  heap p c hne hp hc hchild := by
    have hlt := hchild.lt
    rw [heq p hne (by omega), heq c (by rintro rfl; omega) hc]
    exact h p c hp (by omega) hchild
  skip p c _ _ hchild _ := absurd hchild.lt (by omega)

/-- **The key sinks by one place**, under the higher of the keys below it. -/
theorem HeapBut.swap {root child : Fin n} (h : HeapBut f start stop root) (hstart : start ≤ root.val)
    (hchild : IsChild root child)
    (hmax : ∀ c : Fin n, c.val < stop → IsChild root c → f c ≤ f child) (hlt : f root < f child)
    (hstop : child.val < stop) :
    HeapBut (f ∘ Equiv.swap root child) start stop child := by
  have hroot : (f ∘ Equiv.swap root child) root = f child := congrArg f (Equiv.swap_apply_left ..)
  have hch : (f ∘ Equiv.swap root child) child = f root := congrArg f (Equiv.swap_apply_right ..)
  have hother (i : Fin n) (hr : i ≠ root) (hc : i ≠ child) : (f ∘ Equiv.swap root child) i = f i :=
    congrArg f (Equiv.swap_apply_of_ne_of_ne hr hc)
  have hbelow := hchild.lt
  constructor
  · intro p c hne hp hc hpc
    have hpc_lt := hpc.lt
    by_cases hpr : p = root
    · subst hpr
      rw [hroot]
      by_cases hcc : c = child
      · rw [hcc, hch]
        exact hlt.le
      · rw [hother c (by rintro rfl; omega) hcc]
        exact hmax c hc hpc
    · rw [hother p hpr hne]
      by_cases hcr : c = root
      · rw [hcr, hroot]
        exact h.skip p child hp hstop (hcr ▸ hpc) hchild
      · have hcc : c ≠ child := by
          rintro rfl
          exact hpr (Fin.ext (hpc.parent_eq hchild))
        rw [hother c hcr hcc]
        exact h.heap p c hpr hp hc hpc
  · intro p c hp hc hpc hcc
    have hpr : p = root := Fin.ext (hpc.parent_eq hchild)
    have hlt' := hcc.lt
    rw [hpr, hroot, hother c (by rintro rfl; omega) (by rintro rfl; omega)]
    exact h.heap child c (by rintro rfl; omega) (by omega) hc hcc

/-- The key has sunk far enough. -/
theorem HeapBut.heap_of_le {root : Fin n} (h : HeapBut f start stop root)
    (hle : ∀ c : Fin n, c.val < stop → IsChild root c → f c ≤ f root) : Heap f start stop := by
  intro p c hp hc hpc
  by_cases hpr : p = root
  · subst hpr
    exact hle c hc hpc
  · exact h.heap p c hpr hp hc hpc

/-- The key on top is the highest. -/
theorem Heap.le_top (h : Heap f 0 stop) {top : Fin n} (htop : top.val = 0) : ∀ i : Fin n, i.val < stop →
    f i ≤ f top := by
  intro i
  induction hi : i.val using Nat.strong_induction_on generalizing i with
  | _ k ih =>
    intro hlt
    rcases Nat.eq_zero_or_pos k with rfl | hpos
    · rw [show i = top from Fin.ext (hi.trans htop.symm)]
    · have hparent : (k - 1) / 2 < n := by have := i.isLt; omega
      have hup := ih ((k - 1) / 2) (by omega) ⟨(k - 1) / 2, hparent⟩ rfl (by omega)
      have hedge :=
        h ⟨(k - 1) / 2, hparent⟩ i (Nat.zero_le _) (by omega) (by unfold IsChild; dsimp only; omega)
      exact hedge.trans hup

/-! ### The end in order -/

/-- What sinks below the end leaves it in order. -/
theorem Tail.permute {σ : Equiv.Perm (Fin n)} (h : Tail f stop) (hσ : Fixes σ stop) : Tail (f ∘ σ) stop := by
  intro i j hij hj
  rw [Function.comp_apply, Function.comp_apply, hσ j hj]
  rcases lt_or_ge i.val stop with hi | hi
  · have hlt := hσ.lt hi
    exact h (σ i) j (Fin.le_def.mpr (by omega)) hj
  · rw [hσ i hi]
    exact h i j hij hj

/-- The highest key of the heap goes to the end. -/
theorem Tail.swap {top last : Fin n} (h : Tail f stop) (hheap : Heap f 0 stop) (htop : top.val = 0)
    (hlast : last.val + 1 = stop) :
    Tail (f ∘ Equiv.swap top last) last.val := by
  intro i j hij hj
  rcases Nat.eq_or_lt_of_le hj with heq | hlt
  · rw [show j = last from Fin.ext heq.symm, Function.comp_apply, Function.comp_apply, Equiv.swap_apply_right]
    refine hheap.le_top htop _ ?_
    have hfix : Fixes (Equiv.swap top last) stop := .swap (by omega) (by omega)
    exact hfix.lt (by have := Fin.le_def.mp hij; omega)
  · have hfix : Fixes (Equiv.swap top last) stop := .swap (by omega) (by omega)
    exact h.permute hfix i j hij (by omega)

/-- All keys are in order. -/
theorem Tail.monotone (h : Tail f stop) (hstop : stop ≤ 1) : Monotone f := by
  intro i j hij
  rcases lt_or_ge j.val stop with hj | hj
  · rw [show i = j from Fin.ext (by have := Fin.le_def.mp hij; omega)]
  · exact h i j hij hj

theorem tail_end : Tail f n := fun _ j _ hj => absurd j.isLt (not_lt.mpr hj)

/-! ### The search by halves -/

/-- The first place from `first` on, of `len` places, whose key is not below `x`. -/
def lowerBound (f : Fin n → κ) (x : κ) (first len : ℕ) (h : first + len ≤ n) : ℕ :=
  if hlen : 0 < len then
    if f ⟨first + len / 2, by omega⟩ < x then
      lowerBound f x (first + len / 2 + 1) (len - len / 2 - 1) (by omega)
    else lowerBound f x first (len / 2) (by omega)
  else first
termination_by len

/-- On keys in order the search finds where `x` goes. -/
theorem lowerBound_spec (hf : Monotone f) (x : κ) {first len : ℕ} (h : first + len ≤ n)
    (hlow : ∀ i : Fin n, i.val < first → f i < x)
    (hhigh : ∀ i : Fin n, first + len ≤ i.val → x ≤ f i) :
    (∀ i : Fin n, i.val < lowerBound f x first len h → f i < x) ∧ ∀ i : Fin n,
      lowerBound f x first len h ≤ i.val → x ≤ f i := by
  fun_induction lowerBound f x first len h with
  | case1 first len h hlen hlt ih =>
    refine ih (fun i hi => ?_) fun i hi => hhigh i (by omega)
    exact (hf (Fin.le_def.mpr (by dsimp only; omega))).trans_lt hlt
  | case2 first len h hlen hge ih =>
    refine ih hlow fun i hi => ?_
    exact (not_lt.mp hge).trans (hf (Fin.le_def.mpr (by dsimp only; omega)))
  | case3 first len h hlen => exact ⟨hlow, fun i hi => hhigh i (by omega)⟩

/-- A key that occurs is found. -/
theorem exists_lowerBound (hf : Monotone f) {i : Fin n} : ∃ h : lowerBound f (f i) 0 n (by omega) < n,
    f ⟨_, h⟩ = f i := by
  obtain ⟨hlow, hhigh⟩ :=
    lowerBound_spec hf (f i) (show 0 + n ≤ n by omega) (fun j hj => absurd hj (Nat.not_lt_zero _))
    fun j hj => absurd j.isLt (by omega)
  have hle : lowerBound f (f i) 0 n (by omega) ≤ i.val := not_lt.mp fun hlt => (hlow i hlt).false
  refine ⟨hle.trans_lt i.isLt, le_antisymm (hf (Fin.le_def.mpr hle)) (hhigh _ le_rfl)⟩

end HeapSort
