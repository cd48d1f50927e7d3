import Mathlib.Tactic

/-!
# Shifts of two words

A number of two words is shifted word by word. By at most one word, each word of the result
takes bits from both (`shiftLeft_append`, `ushiftRight_append`, `sshiftRight_append`); by
at least one word, only one word of the number matters (`shiftLeft_append_of_le` and so on).
-/

namespace DoubleWord

variable {w : ℕ} (hi lo : BitVec w) {n : ℕ}

/-- Two words side by side. -/
theorem shiftLeft_or_setWidth : (hi.setWidth (w + w)) <<< w ||| lo.setWidth (w + w) = hi ++ lo := by
  apply BitVec.eq_of_getLsbD_eq
  intro i h
  by_cases hw : i < w
  · simp [BitVec.getLsbD_append, -BitVec.getLsbD_eq_getElem, h, hw]
  · simp [BitVec.getLsbD_append, -BitVec.getLsbD_eq_getElem, h, hw, show i - w < w + w by omega,
      BitVec.getLsbD_of_ge lo i (by omega)]

theorem shiftLeft_append (h : n ≤ w) : (hi ++ lo) <<< n = (lo >>> (w - n) ||| hi <<< n) ++ lo <<< n := by
  apply BitVec.eq_of_getLsbD_eq
  intro i hi'
  simp only [BitVec.getLsbD_shiftLeft, BitVec.getLsbD_append, BitVec.getLsbD_or,
    BitVec.getLsbD_ushiftRight, hi']
  by_cases hn : i < n
  · simp [hn, show i < w by omega]
  · by_cases hw : i < w
    · simp [hn, hw, show i - n < w by omega]
    · by_cases hs : i - n < w
      · simp [hn, hw, hs, show i - w < n by omega, show w - n + (i - w) = i - n by omega]
      · simp [hn, hw, hs, show ¬ i - w < n by omega, show i - w < w by omega,
          BitVec.getLsbD_of_ge lo (w - n + (i - w)) (by omega), show i - n - w = i - w - n by omega]

theorem ushiftRight_append (h : n ≤ w) : (hi ++ lo) >>> n = hi >>> n ++ (lo >>> n ||| hi <<< (w - n)) := by
  apply BitVec.eq_of_getLsbD_eq
  intro i hi'
  simp only [BitVec.getLsbD_shiftLeft, BitVec.getLsbD_append, BitVec.getLsbD_or, BitVec.getLsbD_ushiftRight]
  by_cases hw : i < w
  · by_cases hs : n + i < w
    · simp [hw, hs, show i < w - n by omega]
    · simp [hw, hs, BitVec.getLsbD_of_ge lo (n + i) (by omega), show ¬ i < w - n by omega,
        show n + i - w = i - (w - n) by omega]
  · simp [hw, show ¬ n + i < w by omega, show n + i - w = n + (i - w) by omega]

theorem sshiftRight_append (h : n ≤ w) :
    (hi ++ lo).sshiftRight n = hi.sshiftRight n ++ (lo >>> n ||| hi <<< (w - n)) := by
  apply BitVec.eq_of_getLsbD_eq
  intro i hi'
  have hmsb : (hi ++ lo).msb = hi.msb := by rw [BitVec.msb_append, if_neg (by omega)]
  simp only [BitVec.getLsbD_shiftLeft, BitVec.getLsbD_append, BitVec.getLsbD_or, BitVec.getLsbD_ushiftRight,
    BitVec.getLsbD_sshiftRight, hmsb]
  by_cases hw : i < w
  · by_cases hs : n + i < w
    · simp [hw, hs, show i < w - n by omega, show ¬ w + w ≤ i by omega, show n + i < w + w by omega]
    · simp [hw, hs, BitVec.getLsbD_of_ge lo (n + i) (by omega), show ¬ i < w - n by omega,
        show n + i - w = i - (w - n) by omega, show ¬ w + w ≤ i by omega, show n + i < w + w by omega]
  · by_cases hs : n + i < w + w
    · simp [hw, hs, show ¬ n + i < w by omega, show n + (i - w) < w by omega,
        show n + i - w = n + (i - w) by omega,
        show ¬ w + w ≤ i by omega, show ¬ w ≤ i - w by omega]
    · simp [hw, hs, show ¬ n + (i - w) < w by omega, show ¬ w + w ≤ i by omega, show ¬ w ≤ i - w by omega]

/-- By a word or more, the low word alone is shifted. -/
theorem shiftLeft_append_of_le (h : w ≤ n) : (hi ++ lo) <<< n = lo <<< (n - w) ++ (0 : BitVec w) := by
  apply BitVec.eq_of_getLsbD_eq
  intro i hi'
  simp only [BitVec.getLsbD_shiftLeft, BitVec.getLsbD_append, hi']
  by_cases hw : i < w
  · simp [hw, show i < n by omega]
  · by_cases hn : i < n
    · simp [hw, hn, show i - w < n - w by omega]
    · simp [hw, hn, show ¬ i - w < n - w by omega, show i - n < w by omega, show i - w < w by omega,
        show i - w - (n - w) = i - n by omega]

/-- By a word or more, the high word alone is shifted. -/
theorem ushiftRight_append_of_le (h : w ≤ n) : (hi ++ lo) >>> n = (0 : BitVec w) ++ hi >>> (n - w) := by
  apply BitVec.eq_of_getLsbD_eq
  intro i hi'
  simp only [BitVec.getLsbD_append, BitVec.getLsbD_ushiftRight]
  by_cases hw : i < w
  · simp [hw, show ¬ n + i < w by omega, show n + i - w = n - w + i by omega]
  · simp [hw, show ¬ n + i < w by omega, BitVec.getLsbD_of_ge hi (n + i - w) (by omega)]

theorem sshiftRight_append_of_le (h : w ≤ n) :
    (hi ++ lo).sshiftRight n = hi.sshiftRight w ++ hi.sshiftRight (n - w) := by
  apply BitVec.eq_of_getLsbD_eq
  intro i hi'
  have hmsb : (hi ++ lo).msb = hi.msb := by rw [BitVec.msb_append, if_neg (by omega)]
  simp only [BitVec.getLsbD_append, BitVec.getLsbD_sshiftRight, hmsb]
  by_cases hw : i < w
  · by_cases hn : n + i < w + w
    · simp [hw, hn, show ¬ w + w ≤ i by omega, show ¬ n + i < w by omega, show n - w + i < w by omega,
        show n + i - w = n - w + i by omega]
    · simp [hw, hn, show ¬ w + w ≤ i by omega, show ¬ n - w + i < w by omega]
  · simp [hw, show ¬ w + w ≤ i by omega, show ¬ n + i < w + w by omega, show ¬ w ≤ i - w by omega]

end DoubleWord
