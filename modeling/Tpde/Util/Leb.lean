import Tpde.Library.Leb128

/-!
# Writing LEB128

`uleb_write`, `uleb_len` and `sleb_write` of the utilities. Unsigned numbers are read
back. A signed number is read back exactly if its highest group of seven bits has
room for the sign (`SlebFits`): the loop does not look at the bit that it writes.
-/

namespace Tpde.Util

open Leb128

/-! ### The model -/

/-- The loop of `uleb_write`, for at most `n` groups. -/
def ulebGroups : ℕ → ℕ → List UInt8
  | 0, _ => []
  | n + 1, value =>
    if value / 128 = 0 then [UInt8.ofNat (value % 128)]
    else UInt8.ofNat (value % 128 + 128) :: ulebGroups n (value / 128)

/-- `uleb_write`. -/
def ulebWrite (value : ℕ) : List UInt8 := ulebGroups (value + 1) value

/-- `uleb_len`. -/
def ulebLen (value : ℕ) : ℕ := if value = 0 then 1 else (value.log2 + 1 + 6) / 7

/-- The loop of `sleb_write`, for at most `n` groups. -/
def slebGroups : ℕ → ℤ → List UInt8
  | 0, _ => []
  | n + 1, value =>
    let write := (value % 128).toNat
    let value := value / 128
    if (value = 0 ∧ value / 0x40 % 2 = 0) ∨ (value = -1 ∧ value / 0x40 % 2 = 1) then [UInt8.ofNat write]
    else UInt8.ofNat (write + 128) :: slebGroups n value

/-- `sleb_write`. -/
def slebWrite (value : ℤ) : List UInt8 := slebGroups (value.natAbs + 1) value

/-! ### Unsigned numbers -/

theorem toNat_ofNat_low {n : ℕ} (h : n < 128) : (UInt8.ofNat n).toNat = n := by
  rw [UInt8.toNat_ofNat']
  omega

theorem toNat_ofNat_high {n : ℕ} (h : n < 128) : (UInt8.ofNat (n + 128)).toNat = n + 128 := by
  rw [UInt8.toNat_ofNat']
  omega

theorem ulebGroups_isUleb : ∀ {n value : ℕ}, value < n → IsUleb value (ulebGroups n value)
  | 0, _, h => absurd h (Nat.not_lt_zero _)
  | n + 1, value, h => by
    have hmod : value % 128 < 128 := Nat.mod_lt _ (by decide)
    rw [ulebGroups]
    split
    · have hread := isUleb_last (b := UInt8.ofNat (value % 128)) (by rw [toNat_ofNat_low hmod]; exact hmod)
      rw [toNat_ofNat_low hmod] at hread
      rwa [show value = value % 128 by omega, Nat.mod_mod]
    · have hread :=
        (ulebGroups_isUleb (show value / 128 < n by omega)).cons (b := UInt8.ofNat (value % 128 + 128))
        (by rw [toNat_ofNat_high hmod]; omega)
      rw [toNat_ofNat_high hmod] at hread
      rwa [show value % 128 + 128 - 128 + 128 * (value / 128) = value by omega] at hread

/-- Unsigned numbers are read back. -/
theorem ulebWrite_isUleb (value : ℕ) : IsUleb value (ulebWrite value) :=
  ulebGroups_isUleb (Nat.lt_succ_self _)

theorem log2_div_128 {value : ℕ} (h : value / 128 ≠ 0) : value.log2 = (value / 128).log2 + 7 := by
  have h0 : value ≠ 0 := by
    rintro rfl
    exact h rfl
  have hlow := Nat.log2_self_le h
  have hhigh := (Nat.log2_lt h).mp (Nat.lt_succ_self _)
  apply le_antisymm
  · refine Nat.le_of_lt_succ ((Nat.log2_lt h0).mpr ?_)
    have hpow : 2 ^ ((value / 128).log2 + 7).succ = 2 ^ (value / 128).log2.succ * 128 := by
      rw [Nat.succ_eq_add_one, Nat.succ_eq_add_one]
      ring
    rw [hpow]
    omega
  · refine (Nat.le_log2 h0).mpr ?_
    have hpow : 2 ^ ((value / 128).log2 + 7) = 2 ^ (value / 128).log2 * 128 := by ring
    rw [hpow]
    omega

theorem ulebLen_succ {value : ℕ} (h : value / 128 ≠ 0) : ulebLen value = ulebLen (value / 128) + 1 := by
  have h0 : value ≠ 0 := by
    rintro rfl
    exact h rfl
  rw [ulebLen, ulebLen, if_neg h0, if_neg h, log2_div_128 h]
  omega

theorem ulebLen_small {value : ℕ} (h : value < 128) : ulebLen value = 1 := by
  rw [ulebLen]
  split
  · rfl
  · rename_i h0
    have hlt : value.log2 < 7 := (Nat.log2_lt h0).mpr h
    omega

theorem length_ulebGroups : ∀ {n value : ℕ}, value < n → (ulebGroups n value).length = ulebLen value
  | 0, _, h => absurd h (Nat.not_lt_zero _)
  | n + 1, value, h => by
    rw [ulebGroups]
    split
    · exact (ulebLen_small (by omega)).symm
    · rename_i hne
      rw [List.length_cons, length_ulebGroups (show value / 128 < n by omega), ulebLen_succ hne]

/-- The length that is computed beforehand is the one that is written. -/
theorem length_ulebWrite (value : ℕ) : (ulebWrite value).length = ulebLen value :=
  length_ulebGroups (Nat.lt_succ_self _)

/-! ### Signed numbers -/

/-- A number without its sign. -/
def magnitude (value : ℤ) : ℕ := if 0 ≤ value then value.toNat else (-value - 1).toNat

/-- The highest group of seven bits has room for the sign. -/
def SlebFits (value : ℤ) : Prop := (Nat.digits 128 (magnitude value)).getLastD 0 < 64

instance (value : ℤ) : Decidable (SlebFits value) := inferInstanceAs (Decidable (_ < _))

theorem magnitude_div (value : ℤ) : magnitude (value / 128) = magnitude value / 128 := by
  unfold magnitude
  split <;> split <;> omega

theorem slebFits_small {value : ℤ} (h : magnitude value < 128) : SlebFits value ↔ magnitude value < 64 := by
  rcases Nat.eq_zero_or_pos (magnitude value) with h0 | h0
  · simp [SlebFits, h0]
  · rw [SlebFits, Nat.digits_def' (by decide) h0, Nat.div_eq_of_lt h, Nat.mod_eq_of_lt h]
    simp

theorem slebFits_div {value : ℤ} (h : 128 ≤ magnitude value) : SlebFits value ↔ SlebFits (value / 128) := by
  have hdiv : 0 < magnitude value / 128 := by omega
  rw [SlebFits, SlebFits, magnitude_div, Nat.digits_def' (by decide) (show 0 < magnitude value by omega),
    Nat.digits_def' (by decide) hdiv, List.getLastD_cons, List.getLastD_cons, List.getLastD_cons]

/-- The loop ends when only the sign is left. -/
theorem slebGroups_succ (n : ℕ) (value : ℤ) : slebGroups (n + 1) value =
    if magnitude value < 128 then [UInt8.ofNat (value % 128).toNat]
    else UInt8.ofNat ((value % 128).toNat + 128) :: slebGroups n (value / 128) := by
  rw [slebGroups]
  refine if_congr ?_ rfl rfl
  unfold magnitude
  split <;> omega

/-- What is read back: the number, or one that is off by what its bits can hold. -/
def slebRead (n : ℕ) (value : ℤ) : ℤ :=
  if SlebFits value then value
  else if 0 ≤ value then value - 128 ^ (slebGroups n value).length
    else value + 128 ^ (slebGroups n value).length

theorem slebGroups_isSleb : ∀ {n : ℕ} {value : ℤ}, magnitude value < n →
    IsSleb (slebRead n value) (slebGroups n value) ∧ magnitude value < 128 ^ (slebGroups n value).length
  | 0, _, h => absurd h (Nat.not_lt_zero _)
  | n + 1, value, h => by
    have hmod : (value % 128).toNat < 128 := by omega
    by_cases hsmall : magnitude value < 128
    · have hgroups : slebGroups (n + 1) value = [UInt8.ofNat (value % 128).toNat] := by
        rw [slebGroups_succ, if_pos hsmall]
      have hbyte := toNat_ofNat_low hmod
      refine ⟨?_, by rw [hgroups]; simpa using hsmall⟩
      simp only [slebRead, slebFits_small hsmall, hgroups, List.length_singleton, pow_one]
      by_cases hlow : (value % 128).toNat < 64
      · have hread := isSleb_last (b := UInt8.ofNat (value % 128).toNat) (by omega)
        rw [hbyte] at hread
        convert hread using 1
        unfold magnitude at hsmall ⊢
        split_ifs at hsmall ⊢ <;> omega
      · have hread := isSleb_last_neg (b := UInt8.ofNat (value % 128).toNat) (by omega) (by omega)
        rw [hbyte] at hread
        convert hread using 1
        unfold magnitude at hsmall ⊢
        split_ifs at hsmall ⊢ <;> omega
    · have hgroups : slebGroups (n + 1) value =
          UInt8.ofNat ((value % 128).toNat + 128) :: slebGroups n (value / 128) := by
        rw [slebGroups_succ, if_neg hsmall]
      have hbyte := toNat_ofNat_high hmod
      have hdiv := magnitude_div value
      obtain ⟨ih, hlt⟩ := slebGroups_isSleb (show magnitude (value / 128) < n by omega)
      have hread := ih.cons (b := UInt8.ofNat ((value % 128).toNat + 128)) (by omega)
      rw [hbyte] at hread
      refine ⟨?_, ?_⟩
      · rw [hgroups]
        convert hread using 1
        have hsign : 0 ≤ value / 128 ↔ 0 ≤ value := by omega
        simp only [slebRead, slebFits_div (not_lt.mp hsmall), hgroups, List.length_cons, pow_succ, hsign]
        split_ifs
        · omega
        · push_cast
          have := Int.emod_add_mul_ediv value 128
          linarith [Int.toNat_of_nonneg (Int.emod_nonneg value (show (128 : ℤ) ≠ 0 by decide))]
        · push_cast
          have := Int.emod_add_mul_ediv value 128
          linarith [Int.toNat_of_nonneg (Int.emod_nonneg value (show (128 : ℤ) ≠ 0 by decide))]
      · rw [hgroups, List.length_cons, pow_succ]
        omega

section
variable (value : ℤ)

theorem magnitude_lt : magnitude value < value.natAbs + 1 := by
  unfold magnitude
  split <;> omega

/-- What `sleb_write` writes is read as. -/
def slebReadBack : ℤ := slebRead (value.natAbs + 1) value

theorem slebWrite_isSleb : IsSleb (slebReadBack value) (slebWrite value) :=
  (slebGroups_isSleb (magnitude_lt value)).1

end

section
variable {value : ℤ}

/-- **A signed number is read back** exactly if it fits. -/
theorem slebReadBack_eq_iff : slebReadBack value = value ↔ SlebFits value := by
  unfold slebReadBack slebRead
  split
  · rename_i h
    exact iff_of_true rfl h
  · rename_i h
    have hpos : (0 : ℤ) < 128 ^ (slebGroups (value.natAbs + 1) value).length := by positivity
    refine iff_of_false ?_ h
    split <;> omega

/-- A number that is not read back is read as one of the other sign. -/
theorem slebReadBack_neg (h0 : 0 ≤ value) (h : ¬ SlebFits value) : slebReadBack value < 0 := by
  have hlt := (slebGroups_isSleb (magnitude_lt value)).2
  rw [slebReadBack, slebRead, if_neg h, if_pos h0]
  rw [magnitude, if_pos h0] at hlt
  have hcast : (value.toNat : ℤ) < 128 ^ (slebGroups (value.natAbs + 1) value).length := by exact_mod_cast hlt
  omega

theorem slebReadBack_pos (h0 : value < 0) (h : ¬ SlebFits value) : ∃ k : ℕ,
    slebReadBack value = value + 128 ^ (k + 1) := by
  obtain ⟨k, hk⟩ : ∃ k, (slebGroups (value.natAbs + 1) value).length = k + 1 := by
    rw [slebGroups_succ]
    split
    · exact ⟨0, rfl⟩
    · exact ⟨_, List.length_cons⟩
  exact ⟨k, by rw [slebReadBack, slebRead, if_neg h, if_neg (by omega), hk]⟩

/-- A positive number is not read as zero. -/
theorem slebReadBack_ne_zero (h0 : 0 < value) : slebReadBack value ≠ 0 := by
  by_cases h : SlebFits value
  · rw [slebReadBack_eq_iff.mpr h]
    omega
  · exact (slebReadBack_neg h0.le h).ne

theorem slebGroups_ne_nil {n : ℕ} : slebGroups (n + 1) value ≠ [] := by
  rw [slebGroups_succ]
  split <;> exact List.cons_ne_nil _ _

/-- Only the last byte can be zero. -/
theorem slebGroups_zero_last : ∀ {n : ℕ} {value : ℤ} {a b : List UInt8},
    slebGroups n value = a ++ 0 :: b → b = []
  | 0, _, a, b, h => by
    have hlen := congrArg List.length h
    simp [slebGroups] at hlen
  | n + 1, value, a, b, h => by
    rw [slebGroups_succ] at h
    split at h
    · cases a with
      | nil => exact (List.cons.inj h).2.symm
      | cons x a =>
        have hlen := congrArg List.length h
        simp at hlen
    · cases a with
      | nil =>
        have hbyte := congrArg UInt8.toNat (List.cons.inj h).1
        rw [toNat_ofNat_high (by omega)] at hbyte
        simp at hbyte
      | cons x a => exact slebGroups_zero_last (List.cons.inj h).2

/-- No byte of a positive number is zero. -/
theorem slebGroups_no_zero : ∀ {n : ℕ} {value : ℤ}, 0 < value → (0 : UInt8) ∉ slebGroups n value
  | 0, _, _ => List.not_mem_nil
  | n + 1, value, h0 => by
    rw [slebGroups_succ]
    split
    · rename_i hsmall
      rw [List.mem_singleton]
      intro h
      have hbyte := congrArg UInt8.toNat h
      rw [toNat_ofNat_low (by omega)] at hbyte
      rw [magnitude, if_pos h0.le] at hsmall
      simp only [UInt8.toNat_zero] at hbyte
      omega
    · rename_i hbig
      rw [magnitude, if_pos h0.le] at hbig
      rw [List.mem_cons, not_or]
      refine ⟨fun h => ?_, slebGroups_no_zero (by omega)⟩
      have hbyte := congrArg UInt8.toNat h
      rw [toNat_ofNat_high (by omega)] at hbyte
      simp at hbyte

theorem slebWrite_ne_nil : slebWrite value ≠ [] := slebGroups_ne_nil

theorem slebWrite_neg_one : slebWrite (-1) = [127] := by decide

theorem slebFits_neg_one : SlebFits (-1) := by decide

end

end Tpde.Util
