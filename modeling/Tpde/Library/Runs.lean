import Mathlib.Tactic

/-!
# Runs of a machine

A machine with a partial step: `step s i` is the state that the operation `i` leads to from
`s`, and `none` where it must not be made. The steps of a run are listed with the states
around them. An invariant is proved for one step (`invariant`); the closed form of a safety
property, that it holds at every step exactly if every step meets a condition, is too
(`forall_steps_iff`).
-/

namespace Runs

/-- An operation that was made, with the states around it. -/
structure Step (σ ι : Type*) where
  before : σ
  op : ι
  after : σ

variable {σ ι : Type*} (step : σ → ι → Option σ)

/-- The steps of a run, up to the first operation that is not possible. -/
def steps : σ → List ι → List (Step σ ι)
  | _, [] => []
  | s, i :: is =>
    match step s i with
    | none => []
    | some s' => ⟨s, i, s'⟩ :: steps s' is

variable {step} {s : σ} {is : List ι}

theorem steps_of_none {i : ι} (h : step s i = none) : steps step s (i :: is) = [] := by
  rw [steps, h]

theorem steps_of_some {i : ι} {s' : σ} (h : step s i = some s') :
    steps step s (i :: is) = ⟨s, i, s'⟩ :: steps step s' is := by
  rw [steps, h]

/-- What is listed is a step. -/
theorem step_of_mem {t : Step σ ι} (h : t ∈ steps step s is) : step t.before t.op = some t.after := by
  induction is generalizing s with
  | nil => cases h
  | cons i is ih =>
    cases hs : step s i with
    | none =>
      rw [steps_of_none hs] at h
      cases h
    | some s' =>
      rw [steps_of_some hs] at h
      rcases List.mem_cons.mp h with rfl | h
      · exact hs
      · exact ih h

variable {Inv : σ → Prop}

/-- **What each step keeps holds along the run.** -/
theorem invariant (h0 : Inv s) (hkeep : ∀ t ∈ steps step s is, Inv t.before → Inv t.after) :
    ∀ t ∈ steps step s is, Inv t.before ∧ Inv t.after := by
  induction is generalizing s with
  | nil => exact List.forall_mem_nil _
  | cons i is ih =>
    cases hs : step s i with
    | none =>
      rw [steps_of_none hs]
      exact List.forall_mem_nil _
    | some s' =>
      rw [steps_of_some hs] at hkeep ⊢
      obtain ⟨hfirst, hrest⟩ := List.forall_mem_cons.mp hkeep
      exact List.forall_mem_cons.mpr ⟨⟨h0, hfirst h0⟩, ih (hfirst h0) hrest⟩

/-- **All steps are good exactly if all meet a condition**, where the condition keeps an invariant, and
a step from the invariant is good exactly if it meets the condition. -/
theorem forall_steps_iff {Good Ok : Step σ ι → Prop} (h0 : Inv s)
    (hkeep : ∀ t ∈ steps step s is, Inv t.before → Ok t → Inv t.after)
    (hgood : ∀ t ∈ steps step s is, Inv t.before → (Good t ↔ Ok t)) :
    (∀ t ∈ steps step s is, Good t) ↔ ∀ t ∈ steps step s is, Ok t := by
  induction is generalizing s with
  | nil => exact iff_of_true (List.forall_mem_nil _) (List.forall_mem_nil _)
  | cons i is ih =>
    cases hs : step s i with
    | none =>
      rw [steps_of_none hs]
      exact iff_of_true (List.forall_mem_nil _) (List.forall_mem_nil _)
    | some s' =>
      rw [steps_of_some hs] at hkeep hgood ⊢
      obtain ⟨hfirst, hkeep⟩ := List.forall_mem_cons.mp hkeep
      obtain ⟨hfirstGood, hgood⟩ := List.forall_mem_cons.mp hgood
      rw [List.forall_mem_cons, List.forall_mem_cons, hfirstGood h0]
      exact and_congr_right fun hok => ih (hfirst h0 hok) hkeep hgood

end Runs
