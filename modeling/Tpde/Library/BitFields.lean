import Mathlib.Tactic

/-!
# Fields of instruction words

An instruction keeps an immediate in some of its bits. Patching it replaces the bits
of a mask (`blend`); reading it takes fields out of the word and extends their sign.
A value fits a field if it is the sign extension of its own low bits (`Fits`).
-/

namespace BitFields

variable {w : ℕ}

/-- The bits of `mask` from `data`, the others from `dest`. -/
def blend (mask data dest : BitVec w) : BitVec w := (data &&& mask) ||| (dest &&& ~~~mask)

theorem getLsbD_blend (mask data dest : BitVec w) {i : ℕ} (hi : i < w) :
    (blend mask data dest).getLsbD i = if mask.getLsbD i then data.getLsbD i else dest.getLsbD i := by
  rw [blend, BitVec.getLsbD_or, BitVec.getLsbD_and, BitVec.getLsbD_and, BitVec.getLsbD_not]
  cases mask.getLsbD i with
  | false => simp [hi]
  | true => simp

/-- Bits outside the mask stay. -/
theorem blend_and_not (mask data dest : BitVec w) : blend mask data dest &&& ~~~mask = dest &&& ~~~mask := by
  apply BitVec.eq_of_getLsbD_eq
  intro i hi
  rw [BitVec.getLsbD_and, BitVec.getLsbD_and, BitVec.getLsbD_not, getLsbD_blend mask data dest hi]
  cases mask.getLsbD i with
  | false => simp
  | true => simp

/-- A field inside the mask is the data's. -/
theorem extractLsb'_blend (mask data dest : BitVec w) (s n : ℕ) (hs : s + n ≤ w)
    (h : ∀ i, s ≤ i → i < s + n → mask.getLsbD i = true) :
    (blend mask data dest).extractLsb' s n = data.extractLsb' s n := by
  apply BitVec.eq_of_getLsbD_eq
  intro i hi
  simp [hi, getLsbD_blend mask data dest (show s + i < w by omega),
    h (s + i) (Nat.le_add_right s i) (by omega)]

/-- The low `n` bits are those of the mask. -/
theorem getLsbD_lowMask (n : ℕ) {i : ℕ} (hi : i < w) :
    (BitVec.ofNat w (2 ^ n - 1)).getLsbD i = decide (i < n) := by
  rw [BitVec.getLsbD_ofNat, Nat.testBit_two_pow_sub_one]
  simp [hi]

theorem one_shiftLeft_sub_one {n : ℕ} (hn : n < w) :
    (1 : BitVec w) <<< n - 1 = BitVec.ofNat w (2 ^ n - 1) := by
  apply BitVec.eq_of_toNat_eq
  have hpow : 2 ^ n < 2 ^ w := Nat.pow_lt_pow_right (by decide) hn
  have hpos : 0 < 2 ^ n := Nat.two_pow_pos n
  have hone : 1 % 2 ^ w = 1 := Nat.mod_eq_of_lt (by omega)
  rw [BitVec.toNat_sub, BitVec.toNat_shiftLeft, BitVec.ofNat_eq_ofNat, BitVec.toNat_ofNat,
    BitVec.toNat_ofNat, hone, Nat.shiftLeft_eq,
    Nat.one_mul, Nat.mod_eq_of_lt hpow, Nat.mod_eq_of_lt (show 2 ^ n - 1 < 2 ^ w by omega),
      show 2 ^ w - 1 + 2 ^ n = 2 ^ w + (2 ^ n - 1) by omega,
    Nat.add_mod_left, Nat.mod_eq_of_lt (by omega)]

/-- A mask takes the low bits. -/
theorem and_one_shiftLeft_sub_one {n : ℕ} (hn : n < w) (v : BitVec w) :
    v &&& ((1 : BitVec w) <<< n - 1) = (v.setWidth n).setWidth w := by
  rw [one_shiftLeft_sub_one hn]
  apply BitVec.eq_of_getLsbD_eq
  intro i hi
  rw [BitVec.getLsbD_and, getLsbD_lowMask n hi, BitVec.getLsbD_setWidth, BitVec.getLsbD_setWidth,
    decide_eq_true hi, Bool.true_and,
    Bool.and_comm]

/-- Nothing in the low `n` bits. -/
theorem and_lowMask_eq_zero_iff (n : ℕ) (v : BitVec w) :
    v &&& BitVec.ofNat w (2 ^ n - 1) = 0 ↔ ∀ i < n, v.getLsbD i = false := by
  constructor
  · intro h i hi
    by_cases hw : i < w
    · have hbit : (v &&& BitVec.ofNat w (2 ^ n - 1)).getLsbD i = false := by simp [h]
      rw [BitVec.getLsbD_and, getLsbD_lowMask n hw] at hbit
      simpa [hi] using hbit
    · exact BitVec.getLsbD_of_ge v i (by omega)
  · intro h
    apply BitVec.eq_of_getLsbD_eq
    intro i hi
    rw [BitVec.getLsbD_and, getLsbD_lowMask n hi]
    by_cases hn : i < n
    · simp [h i hn]
    · simp [hn]

/-- The value is the sign extension of its low `n` bits. -/
def Fits (n : ℕ) (v : BitVec w) : Prop := (v.setWidth n).signExtend w = v

instance (n : ℕ) (v : BitVec w) : Decidable (Fits n v) := inferInstanceAs (Decidable (_ = _))

/-- Extending the sign of a field gives a value that fits it. -/
theorem fits_signExtend {n : ℕ} (h : n ≤ w) (x : BitVec n) : Fits n (x.signExtend w) := by
  have : (x.signExtend w).setWidth n = x := by
    ext i hi
    have hw : i < w := by omega
    simp [hi, hw, BitVec.getElem_signExtend]
  rw [Fits, this]

/-- What fits `n` bits fits more. -/
theorem Fits.mono {n m : ℕ} (hn : 0 < n) (hnm : n ≤ m) {v : BitVec w} (h : Fits n v) : Fits m v := by
  have hbits : ∀ i, n ≤ i → i < w → v.getLsbD i = v.getLsbD (n - 1) := by
    intro i hni hi
    have h₁ : ((v.setWidth n).signExtend w).getLsbD i = v.getLsbD i := by rw [h]
    rw [BitVec.getLsbD_signExtend, BitVec.msb_eq_getLsbD_last] at h₁
    have h₂ : ¬ i < n := by omega
    have h₃ : n - 1 < n := by omega
    rw [← h₁]
    simp [hi, h₂, h₃]
  apply BitVec.eq_of_getLsbD_eq
  intro i hi
  rw [BitVec.getLsbD_signExtend, BitVec.msb_eq_getLsbD_last]
  by_cases him : i < m
  · simp [hi, him]
  · have h₁ : m - 1 < m := by omega
    have h₂ : v.getLsbD (m - 1) = v.getLsbD i := by
      rw [hbits i (by omega) hi]
      by_cases hm : n ≤ m - 1
      · exact hbits _ hm (by omega)
      · rw [show m - 1 = n - 1 by omega]
    rw [if_neg him, BitVec.getLsbD_setWidth, h₂]
    simp [hi, h₁]

/-- A shift to the left and an arithmetic one back extend the sign. -/
theorem sshiftRight_shiftLeft {n : ℕ} (hn : 0 < n) (h : n ≤ w) (v : BitVec w) :
    (v <<< (w - n)).sshiftRight (w - n) = (v.setWidth n).signExtend w := by
  apply BitVec.eq_of_getLsbD_eq
  intro i hi
  rw [BitVec.getLsbD_sshiftRight, BitVec.getLsbD_signExtend, BitVec.msb_eq_getLsbD_last,
    BitVec.msb_eq_getLsbD_last]
  by_cases hin : i < n
  · have h₁ : w - n + i < w := by omega
    simp [hi, hin, h₁]
  · have h₁ : ¬ w - n + i < w := by omega
    have h₂ : w - 1 - (w - n) = n - 1 := by omega
    have h₃ : ¬ w - 1 < w - n := by omega
    have h₄ : w - 1 < w := by omega
    have h₅ : n - 1 < n := by omega
    have h₆ : n - 1 < w := by omega
    simp [hi, hin, h₁, h₂, h₃, h₄, h₅, h₆]

/-- They keep what fits. -/
theorem shift_eq_iff_fits {n : ℕ} (hn : 0 < n) (h : n ≤ w) (v : BitVec w) :
    (v <<< (w - n)).sshiftRight (w - n) = v ↔ Fits n v := by
  rw [sshiftRight_shiftLeft hn h, Fits]

end BitFields
