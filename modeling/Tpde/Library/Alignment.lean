import Mathlib.Tactic

/-!
# Aligning with masks

Powers of two as machine words: the test for them, the position of their bit, and the masks `x - 1` and
`~(x - 1)`, which take a word modulo `x` and down to a multiple of it.
-/

namespace Alignment

variable {w k : ℕ} {x y : BitVec w}

/-- The test for a power of two. -/
theorem isPowerOfTwo_iff : (x ≠ 0 ∧ x &&& (x - 1) = 0) ↔ ∃ k, x.toNat = 2 ^ k := by
  have hzero : x ≠ 0 ↔ x.toNat ≠ 0 := by
    rw [Ne, ← BitVec.toNat_inj, BitVec.ofNat_eq_ofNat, BitVec.toNat_ofNat, Nat.zero_mod]
  rw [hzero, ← BitVec.toNat_inj]
  refine Iff.trans (and_congr_right fun hne => ?_) Nat.ne_zero_and_sub_one_eq_zero_iff_isPowerOfTwo
  have hlt := x.isLt
  have hpos : 0 < w := Nat.pos_of_ne_zero fun h => by
    subst h
    omega
  have hone : (1 : BitVec w).toNat = 1 := by
    rw [BitVec.ofNat_eq_ofNat, BitVec.toNat_ofNat, Nat.mod_eq_of_lt (Nat.one_lt_two_pow hpos.ne')]
  rw [BitVec.toNat_and, BitVec.toNat_sub, hone,
    show 2 ^ w - 1 + x.toNat = (x.toNat - 1) + 2 ^ w by omega, Nat.add_mod_right,
    Nat.mod_eq_of_lt (show x.toNat - 1 < 2 ^ w by omega)]
  exact Iff.rfl

/-- The mask below a power of two. -/
theorem sub_one_eq (h : y.toNat = 2 ^ k) : y - 1 = BitVec.ofNat w (2 ^ k - 1) := by
  have hlt := y.isLt
  have hk : 0 < 2 ^ k := Nat.two_pow_pos k
  rcases Nat.eq_zero_or_pos w with rfl | hpos
  · exact Subsingleton.elim _ _
  · apply BitVec.eq_of_toNat_eq
    rw [BitVec.toNat_sub, BitVec.ofNat_eq_ofNat, BitVec.toNat_ofNat, BitVec.toNat_ofNat,
      Nat.mod_eq_of_lt (Nat.one_lt_two_pow hpos.ne'), h,
      show 2 ^ w - 1 + 2 ^ k = 2 ^ k - 1 + 2 ^ w by omega, Nat.add_mod_right]

/-- The low bits. -/
theorem toNat_and_mask (h : y.toNat = 2 ^ k) : (x &&& (y - 1)).toNat = x.toNat % 2 ^ k := by
  have hlt := y.isLt
  rw [sub_one_eq h, BitVec.toNat_and, BitVec.toNat_ofNat, Nat.mod_eq_of_lt (by omega),
    Nat.and_two_pow_sub_one_eq_mod]

theorem and_mask_eq_zero_iff (h : y.toNat = 2 ^ k) : x &&& (y - 1) = 0 ↔ 2 ^ k ∣ x.toNat := by
  rw [← BitVec.toNat_inj, toNat_and_mask h, BitVec.ofNat_eq_ofNat, BitVec.toNat_ofNat, Nat.zero_mod,
    Nat.dvd_iff_mod_eq_zero]

/-- Down to a multiple. -/
theorem toNat_and_not_mask (h : y.toNat = 2 ^ k) : (x &&& ~~~(y - 1)).toNat = 2 ^ k * (x.toNat / 2 ^ k) := by
  have hlt := y.isLt
  apply Nat.eq_of_testBit_eq
  intro i
  rw [BitVec.testBit_toNat, BitVec.getLsbD_and, BitVec.getLsbD_not, sub_one_eq h, BitVec.getLsbD_ofNat,
    Nat.testBit_two_pow_sub_one,
    Nat.testBit_two_pow_mul, Nat.testBit_div_two_pow, BitVec.testBit_toNat]
  by_cases hi : i < w
  · by_cases hik : i < k
    · simp [hi, hik, Nat.not_le.mpr hik]
    · have hle : k ≤ i := not_lt.mp hik
      rw [Nat.sub_add_cancel hle]
      simp [hi, hik, hle]
  · rw [BitVec.getLsbD_of_ge x i (not_lt.mp hi)]
    simp only [Bool.false_and]
    by_cases hle : k ≤ i
    · rw [Nat.sub_add_cancel hle, BitVec.getLsbD_of_ge x i (not_lt.mp hi), Bool.and_false]
    · rw [decide_eq_false hle, Bool.false_and]

/-- The position of the bit. -/
theorem toNat_ctz (h : x.toNat = 2 ^ k) : x.ctz.toNat = k := by
  have hne : x ≠ 0#w := by
    rintro rfl
    rw [BitVec.toNat_ofNat, Nat.zero_mod] at h
    exact absurd h (Nat.two_pow_pos k).ne
  have hbit := BitVec.getLsbD_true_ctz_of_ne_zero hne
  rw [← BitVec.testBit_toNat, h, Nat.testBit_two_pow, decide_eq_true_eq] at hbit
  exact hbit.symm

end Alignment
