import Tpde.Analyzer.Liveness

/-!
# Searching the tree of the loops

The two walks that `compute_liveness` makes along the parents of a table of loops: up to the
loop right inside another one (`targetLoop_spec`), and up from two loops to the lowest one around
both (`commonLoop_spec`). They use of the table only that it is a tree with levels.
-/

namespace Tpde.Analyzer

open Relation

namespace LoopTable

/-- Loop `a` is `b`, or a loop inside it. -/
def Under (l : LoopTable) : ℕ → ℕ → Prop := ReflTransGen fun a b => a ≠ 0 ∧ l.parent a = b

/-- The loops are a tree with root 0, and one level deeper than their parents. -/
structure IsTree (l : LoopTable) : Prop where
  size_pos : 0 < l.size
  level_zero : l.level 0 = 0
  parent_lt : ∀ L < l.size, L ≠ 0 → l.parent L < L
  level_parent : ∀ L < l.size, L ≠ 0 → l.level L = l.level (l.parent L) + 1

variable {l : LoopTable}

theorem Under.refl (L : ℕ) : l.Under L L := ReflTransGen.refl

theorem Under.trans {a b c : ℕ} (h : l.Under a b) (h' : l.Under b c) : l.Under a c := ReflTransGen.trans h h'

theorem Under.parent {L : ℕ} (h0 : L ≠ 0) : l.Under L (l.parent L) := ReflTransGen.single ⟨h0, rfl⟩

theorem Under.total {c a b : ℕ} (ha : l.Under c a) (hb : l.Under c b) : l.Under a b ∨ l.Under b a :=
  ReflTransGen.total_of_right_unique (fun _ _ _ h h' => h.2.symm.trans h'.2) ha hb

/-- The way up from a loop goes through its parent. -/
theorem Under.of_ne {a b : ℕ} (h : l.Under a b) (hab : a ≠ b) : l.Under (l.parent a) b := by
  rcases ReflTransGen.cases_head h with rfl | ⟨c, ⟨-, rfl⟩, hc⟩
  · exact absurd rfl hab
  · exact hc

namespace IsTree

variable (hT : l.IsTree)
include hT

theorem under_le {a b : ℕ} (h : l.Under a b) (ha : a < l.size) : b ≤ a := by
  induction h with
  | refl => exact le_rfl
  | tail _ he ih =>
    obtain ⟨h0, rfl⟩ := he
    exact (hT.parent_lt _ (ih.trans_lt ha) h0).le.trans ih

theorem under_lt {a b : ℕ} (h : l.Under a b) (ha : a < l.size) : b < l.size := (hT.under_le h ha).trans_lt ha

theorem antisymm {a b : ℕ} (ha : a < l.size) (h : l.Under a b) (h' : l.Under b a) : a = b :=
  le_antisymm (hT.under_le h' (hT.under_lt h ha)) (hT.under_le h ha)

theorem under_zero {a : ℕ} (ha : a < l.size) : l.Under a 0 := by
  induction a using Nat.strong_induction_on with
  | _ a ih =>
    by_cases h0 : a = 0
    · subst h0
      exact .refl 0
    · have hlt := hT.parent_lt a ha h0
      exact ReflTransGen.head ⟨h0, rfl⟩ (ih _ hlt (hlt.trans ha))

/-- A loop inside another is deeper, or the same. -/
theorem level_of_under {a b : ℕ} (h : l.Under a b) (ha : a < l.size) : a = b ∨ l.level b < l.level a := by
  induction h with
  | refl => exact .inl rfl
  | @tail c d hac he ih =>
    obtain ⟨hc0, rfl⟩ := he
    have hc := hT.level_parent c (hT.under_lt hac ha) hc0
    refine .inr ?_
    rcases ih with rfl | ih <;> omega

/-- A loop is inside one child of another only. -/
theorem child_unique {a c c' : ℕ} (ha : a < l.size) (hc : l.Under a c) (hc' : l.Under a c') (h0 : c ≠ 0)
    (h0' : c' ≠ 0) (hp : l.parent c = l.parent c') : c = c' := by
  have hlev := hT.level_parent c (hT.under_lt hc ha) h0
  have hlev' := hT.level_parent c' (hT.under_lt hc' ha) h0'
  rw [hp] at hlev
  rcases hc.total hc' with h | h
  · rcases hT.level_of_under h (hT.under_lt hc ha) with heq | hlt
    · exact heq
    · omega
  · rcases hT.level_of_under h (hT.under_lt hc' ha) with heq | hlt
    · exact heq.symm
    · omega

/-- The loop that `while (cur_level != target_level)` stops at: the one right inside the target. -/
theorem targetLoop_spec {L c : ℕ} (hc : c < l.size) (h : l.Under c L) (hne : c ≠ L) :
    ∃ e, l.targetLoop (l.level L + 1) (l.level c) c = e ∧ l.Under c e ∧ e ≠ 0 ∧ l.parent e = L := by
  generalize hn : l.level c = n
  induction n generalizing c with
  | zero =>
    rcases hT.level_of_under h hc with rfl | hlt
    · exact absurd rfl hne
    · omega
  | succ n ih =>
    have hc0 : c ≠ 0 := by
      rintro rfl
      have := hT.level_zero
      omega
    have hpar := hT.level_parent c hc hc0
    have hplt : l.parent c < l.size := (hT.parent_lt c hc hc0).trans hc
    rw [targetLoop]
    split_ifs with htarget
    · refine ⟨c, rfl, .refl c, hc0, ?_⟩
      rcases hT.level_of_under (h.of_ne hne) hplt with heq | hlt
      · exact heq
      · omega
    · have hpne : l.parent c ≠ L := by
        rintro rfl
        omega
      obtain ⟨e, he, hce, he0, hep⟩ := ih hplt (h.of_ne hne) hpne (by omega)
      exact ⟨e, he, (Under.parent hc0).trans hce, he0, hep⟩

end IsTree

end LoopTable

/-! ### The search for the common loop -/

/-- What the search keeps, from loops `a` and `b`. -/
structure MeetInv (l : LoopTable) (a b : ℕ) (s : LoopSearch) : Prop where
  lhs : l.Under a s.lhs
  rhs : l.Under b s.rhs
  least : ∀ D, l.Under a D → l.Under b D → l.Under s.lhs D ∧ l.Under s.rhs D
  prevLhs : s.lhs = a ∨ (l.Under a s.prevLhs ∧ s.prevLhs ≠ 0 ∧ l.parent s.prevLhs = s.lhs)
  prevRhs : s.rhs = b ∨ (l.Under b s.prevRhs ∧ s.prevRhs ≠ 0 ∧ l.parent s.prevRhs = s.rhs)

section
variable {l : LoopTable} {a b : ℕ} {s : LoopSearch}

/-- Going up on the left, which nothing around both loops forbids. -/
theorem MeetInv.up_left (h : MeetInv l a b s) (h0 : s.lhs ≠ 0)
    (hne : ∀ D, l.Under a D → l.Under b D → s.lhs ≠ D) :
    MeetInv l a b { s with prevLhs := s.lhs, lhs := l.parent s.lhs } where
  lhs := h.lhs.trans (.parent h0)
  rhs := h.rhs
  least D ha hb := ⟨(h.least D ha hb).1.of_ne (hne D ha hb), (h.least D ha hb).2⟩
  prevLhs := .inr ⟨h.lhs, h0, rfl⟩
  prevRhs := h.prevRhs

theorem MeetInv.up_right (h : MeetInv l a b s) (h0 : s.rhs ≠ 0)
    (hne : ∀ D, l.Under a D → l.Under b D → s.rhs ≠ D) :
    MeetInv l a b { s with prevRhs := s.rhs, rhs := l.parent s.rhs } where
  lhs := h.lhs
  rhs := h.rhs.trans (.parent h0)
  least D ha hb := ⟨(h.least D ha hb).1, (h.least D ha hb).2.of_ne (hne D ha hb)⟩
  prevLhs := h.prevLhs
  prevRhs := .inr ⟨h.rhs, h0, rfl⟩

/-- A loop that is not less deep than another around both loops is around both only if it is the other. -/
theorem MeetInv.ne_of_level (hT : l.IsTree) (h : MeetInv l a b s) (ha : a < l.size) (hb : b < l.size)
    (hne : s.lhs ≠ s.rhs) :
    (l.level s.rhs ≤ l.level s.lhs → s.lhs ≠ 0 ∧ ∀ D, l.Under a D → l.Under b D → s.lhs ≠ D) ∧
    (l.level s.lhs ≤ l.level s.rhs → s.rhs ≠ 0 ∧ ∀ D, l.Under a D → l.Under b D → s.rhs ≠ D) := by
  have hl := hT.under_lt h.lhs ha
  have hr := hT.under_lt h.rhs hb
  have key : ∀ x y, x < l.size → y < l.size → x ≠ y → l.level y ≤ l.level x → l.Under y x → False := by
    intro x y hx hy hxy hle hu
    rcases hT.level_of_under hu hy with rfl | hlt
    · exact hxy rfl
    · omega
  refine ⟨fun hle => ⟨?_, fun D hD hD' hlD => ?_⟩, fun hle => ⟨?_, fun D hD hD' hrD => ?_⟩⟩
  · intro h0
    exact key _ _ hl hr hne hle (h0 ▸ hT.under_zero hr)
  · exact key _ _ hl hr hne hle (hlD ▸ (h.least D hD hD').2)
  · intro h0
    exact key _ _ hr hl hne.symm hle (h0 ▸ hT.under_zero hl)
  · exact key _ _ hr hl hne.symm hle (hrD ▸ (h.least D hD hD').1)

/-- A round goes up on a side, or on both. -/
theorem MeetInv.step (hT : l.IsTree) (h : MeetInv l a b s) (ha : a < l.size) (hb : b < l.size)
    (hne : s.lhs ≠ s.rhs) : MeetInv l a b (s.step l) ∧
      l.level (s.step l).lhs + l.level (s.step l).rhs < l.level s.lhs + l.level s.rhs := by
  obtain ⟨hleft, hright⟩ := h.ne_of_level hT ha hb hne
  have hl := hT.under_lt h.lhs ha
  have hr := hT.under_lt h.rhs hb
  unfold LoopSearch.step
  split_ifs with h1 h2
  · obtain ⟨h0, hD⟩ := hleft h1.le
    have := hT.level_parent _ hl h0
    exact ⟨h.up_left h0 hD, by dsimp only; omega⟩
  · obtain ⟨h0, hD⟩ := hright h2.le
    have := hT.level_parent _ hr h0
    exact ⟨h.up_right h0 hD, by dsimp only; omega⟩
  · obtain ⟨h0, hD⟩ := hleft (Nat.le_of_not_lt h2)
    obtain ⟨h0', hD'⟩ := hright (Nat.le_of_not_lt h1)
    have := hT.level_parent _ hl h0
    have := hT.level_parent _ hr h0'
    exact ⟨(h.up_left h0 hD).up_right h0' hD', by dsimp only; omega⟩

/-- The common loop of two loops one of which is not around the other, and the loops right inside it. -/
theorem commonLoop_meet (hT : l.IsTree) (ha : a < l.size) (hb : b < l.size) (hba : ¬ l.Under b a) :
    l.Under b (commonLoop l a b).lhs ∧
    (∀ D, l.Under a D → l.Under b D → l.Under (commonLoop l a b).lhs D) ∧
    (l.Under a (commonLoop l a b).prevLhs ∧ (commonLoop l a b).prevLhs ≠ 0 ∧
      l.parent (commonLoop l a b).prevLhs = (commonLoop l a b).lhs) ∧
    ((commonLoop l a b).lhs ≠ b → l.Under b (commonLoop l a b).prevRhs ∧ (commonLoop l a b).prevRhs ≠ 0 ∧
      l.parent (commonLoop l a b).prevRhs = (commonLoop l a b).lhs) := by
  have hinit : MeetInv l a b ⟨a, b, a, b⟩ := ⟨.refl a, .refl b, fun D h h' => ⟨h, h'⟩, .inl rfl, .inl rfl⟩
  have hstep : ∀ s, MeetInv l a b s → (s.lhs != s.rhs) = true → MeetInv l a b (s.step l) :=
    fun s h hc => (h.step hT ha hb (by simpa using hc)).1
  have h : MeetInv l a b (commonLoop l a b) := While.run_inv hstep _ _ hinit
  have hend : ((commonLoop l a b).lhs != (commonLoop l a b).rhs) = false :=
    While.run_end hstep (fun s => l.level s.lhs + l.level s.rhs)
      (fun s h hc => (h.step hT ha hb (by simpa using hc)).2) _ _ hinit le_rfl
  generalize commonLoop l a b = s at h hend
  have heq : s.lhs = s.rhs := by simpa using hend
  refine ⟨heq ▸ h.rhs, fun D hD hD' => (h.least D hD hD').1, ?_, fun hne => ?_⟩
  · refine h.prevLhs.resolve_left fun hla => hba ?_
    rw [← hla, heq]
    exact h.rhs
  · rw [heq] at hne ⊢
    exact h.prevRhs.resolve_left hne

end

end Tpde.Analyzer
