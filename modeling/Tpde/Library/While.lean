import Mathlib.Tactic

/-!
# Loops with fuel

A `while` loop run for at most `n` rounds, the rule of its invariant, and the
rule of its variant: a variant that starts at most at `n` and falls in every
round gets the loop to its end.
-/

namespace While

variable {σ : Type*}

/-- `while cond s do s := body s`, for at most `n` rounds. -/
def run (cond : σ → Bool) (body : σ → σ) : ℕ → σ → σ
  | 0, s => s
  | n + 1, s => if cond s then run cond body n (body s) else s

variable {cond : σ → Bool} {body : σ → σ} {Inv : σ → Prop}

/-- The invariant rule. -/
theorem run_inv (step : ∀ s, Inv s → cond s = true → Inv (body s)) :
    ∀ (n : ℕ) (s : σ), Inv s → Inv (run cond body n s) := by
  intro n
  induction n with
  | zero => exact fun s h => h
  | succ n ih =>
    intro s h
    rw [run]
    split
    · exact ih _ (step s h ‹_›)
    · exact h

/-- The variant rule: with enough fuel the loop ends. -/
theorem run_end (step : ∀ s, Inv s → cond s = true → Inv (body s)) (μ : σ → ℕ)
    (fall : ∀ s, Inv s → cond s = true → μ (body s) < μ s) :
    ∀ (n : ℕ) (s : σ), Inv s → μ s ≤ n → cond (run cond body n s) = false := by
  intro n
  induction n with
  | zero =>
    intro s h hμ
    by_contra hc
    exact absurd (fall s h (by simpa [run] using hc)) (by omega)
  | succ n ih =>
    intro s h hμ
    rw [run]
    split
    · rename_i hc
      exact ih _ (step s h hc) (by have := fall s h hc; omega)
    · rename_i hc
      simpa using hc

end While
