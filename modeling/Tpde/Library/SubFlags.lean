import Mathlib.Tactic

/-!
# The flags of a subtraction

A machine compares two numbers by the flags of their subtraction: whether the difference
is zero, its sign, the borrow and the signed overflow. With a borrow from lower words the
borrow and the signs compare numbers of several words (`borrow_append`,
`less_append`), but the zero flag is that of the highest word alone (`zero_append`).
-/

namespace SubFlags

/-- What a subtraction says of its operands. -/
structure Flags where
  zero : Bool
  neg : Bool
  borrow : Bool
  overflow : Bool
  deriving DecidableEq, Repr

variable {w n m : ℕ}

/-- The difference, with a borrow. -/
def diff (x y : BitVec w) (b : Bool) : BitVec w := x - y - BitVec.ofNat w b.toNat

/-- The difference of the signed numbers. -/
def signedDiff (x y : BitVec w) (b : Bool) : ℤ := x.toInt - y.toInt - b.toNat

/-- The flags of a subtraction with a borrow. -/
def sub (x y : BitVec w) (b : Bool) : Flags where
  zero := diff x y b = 0
  neg := (diff x y b).msb
  borrow := x.toNat < y.toNat + b.toNat
  overflow := (diff x y b).toInt ≠ signedDiff x y b

/-- The signs say that the first operand is less. -/
def Flags.less (f : Flags) : Bool := f.neg != f.overflow

theorem toInt_diff (x y : BitVec w) (b : Bool) : (diff x y b).toInt = (signedDiff x y b).bmod (2 ^ w) := by
  rw [diff, BitVec.toInt_sub, BitVec.toInt_sub, BitVec.toInt_ofNat', Int.sub_bmod_bmod, Int.bmod_sub_bmod]
  rfl

/-- A difference that does not fit is off by one turn. -/
theorem bmod_cases {d : ℤ} {k : ℕ} (hlow : -2 ^ (k + 1) ≤ d) (hhigh : d < 2 ^ (k + 1)) :
    (d < -2 ^ k ∧ d.bmod (2 ^ (k + 1)) = d + 2 ^ (k + 1)) ∨
      (-2 ^ k ≤ d ∧ d < 2 ^ k ∧ d.bmod (2 ^ (k + 1)) = d) ∨
      (2 ^ k ≤ d ∧ d.bmod (2 ^ (k + 1)) = d - 2 ^ (k + 1)) := by
  have hpow : (2 : ℤ) ^ (k + 1) = 2 * 2 ^ k := by ring
  have hcast : ((2 ^ (k + 1) : ℕ) : ℤ) = 2 * 2 ^ k := by
    push_cast
    exact hpow
  have hadd := Int.add_bmod_right d (2 ^ (k + 1))
  have hsub := Int.sub_bmod_right d (2 ^ (k + 1))
  rw [hpow] at hlow hhigh ⊢
  by_cases hsmall : d < -2 ^ k
  · refine .inl ⟨hsmall, ?_⟩
    rw [← hadd, Int.bmod_eq_of_le_mul_two (by rw [hcast]; omega) (by rw [hcast]; omega), hcast]
  · by_cases hlarge : d < 2 ^ k
    · exact .inr
        (.inl ⟨by omega, hlarge, Int.bmod_eq_of_le_mul_two (by rw [hcast]; omega) (by rw [hcast]; omega)⟩)
    · refine .inr (.inr ⟨by omega, ?_⟩)
      rw [← hsub, Int.bmod_eq_of_le_mul_two (by rw [hcast]; omega) (by rw [hcast]; omega), hcast]

/-! ### One word -/

theorem zero_sub (x y : BitVec w) : (sub x y false).zero = decide (x = y) := by
  have hdiff : diff x y false = x - y := by simp [diff]
  have hzero : x - y = 0 ↔ x = y := by rw [BitVec.sub_eq_iff_eq_add, BitVec.ofNat_eq_ofNat, BitVec.zero_add]
  simp only [sub, hdiff, hzero]

theorem borrow_sub (x y : BitVec w) : (sub x y false).borrow = x.ult y := rfl

/-- The signs compare, also where the difference overflows. -/
theorem less_sub (x y : BitVec w) (b : Bool) (hw : 0 < w) :
    (sub x y b).less = decide (signedDiff x y b < 0) := by
  obtain ⟨k, rfl⟩ : ∃ k, w = k + 1 := ⟨w - 1, by omega⟩
  have hx := @BitVec.two_mul_toInt_lt _ x
  have hx' := @BitVec.le_two_mul_toInt _ x
  have hy := @BitVec.two_mul_toInt_lt _ y
  have hy' := @BitVec.le_two_mul_toInt _ y
  have hpow : (2 : ℤ) ^ (k + 1) = 2 * 2 ^ k := by ring
  have hb : (b.toNat : ℤ) ≤ 1 := by cases b <;> simp
  have hlow : -2 ^ (k + 1) ≤ signedDiff x y b := by
    rw [signedDiff]
    omega
  have hhigh : signedDiff x y b < 2 ^ (k + 1) := by
    rw [signedDiff]
    omega
  have hmsb : (diff x y b).msb = decide ((diff x y b).toInt < 0) := BitVec.msb_eq_toInt
  rw [Flags.less, sub, hmsb, toInt_diff, Bool.eq_iff_iff, bne_iff_ne]
  simp only [ne_eq, decide_eq_true_eq, decide_eq_decide]
  rcases bmod_cases hlow hhigh with ⟨hd, hmod⟩ | ⟨hd, hd', hmod⟩ | ⟨hd, hmod⟩
  · rw [hmod]
    omega
  · rw [hmod]
    omega
  · rw [hmod]
    omega

theorem less_sub_false (x y : BitVec w) (hw : 0 < w) : (sub x y false).less = x.slt y := by
  rw [less_sub x y false hw, BitVec.slt_eq_decide, signedDiff, decide_eq_decide]
  simp

/-! ### Two words -/

/-- Words are compared by their high parts, after a borrow from the low parts. -/
theorem words_lt_iff {a b c d M : ℤ} (hc : 0 ≤ c) (hcM : c < M) (hd : 0 ≤ d) (hdM : d < M) :
    a * M + c < b * M + d ↔ a - b - (decide (c < d)).toNat < 0 := by
  have hmono {x y : ℤ} (h : x ≤ y) : x * M ≤ y * M := mul_le_mul_of_nonneg_right h (by omega)
  have hsucc : (b + 1) * M = b * M + M := by ring
  have hsucc' : (a + 1) * M = a * M + M := by ring
  by_cases hlt : c < d
  · simp only [hlt, decide_true, Bool.toNat_true, Nat.cast_one]
    constructor
    · intro h
      by_contra hab
      have hle := hmono (show b + 1 ≤ a by omega)
      omega
    · intro h
      have hle := hmono (show a ≤ b by omega)
      omega
  · simp only [hlt, decide_false, Bool.toNat_false, Nat.cast_zero]
    constructor
    · intro h
      by_contra hab
      have hle := hmono (show b ≤ a by omega)
      omega
    · intro h
      have hle := hmono (show a + 1 ≤ b by omega)
      omega

theorem toNat_append_eq (h : BitVec n) (l : BitVec m) : ((h ++ l).toNat : ℤ) = h.toNat * 2 ^ m + l.toNat := by
  rw [BitVec.toNat_append, ← Nat.shiftLeft_add_eq_or_of_lt l.isLt, Nat.shiftLeft_eq]
  push_cast
  rfl

theorem toNat_sub_eq (x y : BitVec w) : ((x - y).toNat : ℤ) = ((x.toNat : ℤ) - y.toNat) % 2 ^ w := by
  have hy := y.isLt
  rw [BitVec.toNat_sub, Int.natCast_mod, Nat.cast_add, Nat.cast_sub hy.le]
  push_cast
  rw [show (2 : ℤ) ^ w - y.toNat + x.toNat = x.toNat - y.toNat + 2 ^ w by ring, Int.add_emod_right]

theorem toNat_diff (x y : BitVec w) (b : Bool) :
    ((diff x y b).toNat : ℤ) = ((x.toNat : ℤ) - y.toNat - b.toNat) % 2 ^ w := by
  rw [diff, toNat_sub_eq, toNat_sub_eq, BitVec.toNat_ofNat]
  push_cast
  rw [Int.sub_emod, Int.emod_emod, Int.emod_emod, ← Int.sub_emod]

section
variable (xh yh : BitVec n) (xl yl : BitVec m)

/-- The borrow compares numbers of two words. -/
theorem borrow_append : (sub xh yh (xl.ult yl)).borrow = (xh ++ xl).ult (yh ++ yl) := by
  have hxl : (xl.toNat : ℤ) < 2 ^ m := mod_cast xl.isLt
  have hyl : (yl.toNat : ℤ) < 2 ^ m := mod_cast yl.isLt
  have hwords :=
    words_lt_iff (a := xh.toNat) (b := yh.toNat) (Int.natCast_nonneg _) hxl (Int.natCast_nonneg _) hyl
  rw [← toNat_append_eq, ← toNat_append_eq] at hwords
  simp only [Nat.cast_lt] at hwords
  simp only [BitVec.ult_eq_decide, sub, decide_eq_decide, hwords]
  omega

/-- The signs compare numbers of two words. -/
theorem less_append (hn : 0 < n) : (sub xh yh (xl.ult yl)).less = (xh ++ xl).slt (yh ++ yl) := by
  have hxl : (xl.toNat : ℤ) < 2 ^ m := mod_cast xl.isLt
  have hyl : (yl.toNat : ℤ) < 2 ^ m := mod_cast yl.isLt
  have hwords :=
    words_lt_iff (a := xh.toInt) (b := yh.toInt) (Int.natCast_nonneg _) hxl (Int.natCast_nonneg _) hyl
  have happend (h : BitVec n) (l : BitVec m) : (h ++ l).toInt = h.toInt * 2 ^ m + l.toNat := by
    rw [BitVec.toInt_append, if_neg (by simpa using hn.ne'), mul_comm]
  simp only [Nat.cast_lt] at hwords
  rw [less_sub _ _ _ hn, BitVec.slt_eq_decide, decide_eq_decide, happend, happend, hwords, signedDiff,
    BitVec.ult_eq_decide]

/-- The zero flag only says that the high word of the difference is zero. -/
theorem zero_append : (sub xh yh (xl.ult yl)).zero = decide (((xh ++ xl) - (yh ++ yl)).toNat < 2 ^ m) := by
  have hxl : (xl.toNat : ℤ) < 2 ^ m := mod_cast xl.isLt
  have hyl : (yl.toNat : ℤ) < 2 ^ m := mod_cast yl.isLt
  set b := xl.ult yl with hb
  set e : ℤ := xl.toNat - yl.toNat + b.toNat * 2 ^ m with he
  set d : ℤ := xh.toNat - yh.toNat - b.toNat with hd
  have hb' : b = decide (xl.toNat < yl.toNat) := hb.trans (BitVec.ult_eq_decide ..)
  -- the low word of the difference
  have he0 : 0 ≤ e ∧ e < 2 ^ m := by
    by_cases hlt : xl.toNat < yl.toNat
    · simp only [he, hb', hlt, decide_true, Bool.toNat_true, Nat.cast_one, one_mul]
      omega
    · simp only [he, hb', hlt, decide_false, Bool.toNat_false, Nat.cast_zero, zero_mul]
      omega
  have hpow : (0 : ℤ) < 2 ^ m := by positivity
  have hnonneg : 0 ≤ d % 2 ^ n := Int.emod_nonneg _ (by positivity)
  have hbound : d % 2 ^ n < 2 ^ n := Int.emod_lt_of_pos _ (by positivity)
  have hwords : (((xh ++ xl) - (yh ++ yl)).toNat : ℤ) = d % 2 ^ n * 2 ^ m + e := by
    have hdiv : d = d % 2 ^ n + 2 ^ n * (d / 2 ^ n) := (Int.emod_add_mul_ediv d _).symm
    have hsplit : (xh.toNat : ℤ) * 2 ^ m + xl.toNat - (yh.toNat * 2 ^ m + yl.toNat) =
        d % 2 ^ n * 2 ^ m + e + 2 ^ (n + m) * (d / 2 ^ n) := by
      have hsum : (xh.toNat : ℤ) * 2 ^ m + xl.toNat - (yh.toNat * 2 ^ m + yl.toNat) = e + 2 ^ m * d := by
        rw [he, hd]
        ring
      rw [hsum, pow_add]
      linear_combination (2 : ℤ) ^ m * hdiv
    rw [toNat_sub_eq, toNat_append_eq, toNat_append_eq, hsplit, Int.add_mul_emod_self_left, Int.emod_eq_of_lt]
    · have := mul_nonneg hnonneg hpow.le
      omega
    · rw [pow_add]
      nlinarith
  have hzero : diff xh yh b = 0 ↔ d % 2 ^ n = 0 := by
    rw [hd, ← toNat_diff, Nat.cast_eq_zero]
    exact BitVec.toNat_eq.trans (by simp)
  have hlt : ((xh ++ xl) - (yh ++ yl)).toNat < 2 ^ m ↔ d % 2 ^ n * 2 ^ m + e < 2 ^ m := by
    rw [← hwords]
    exact_mod_cast Iff.rfl
  simp only [sub, decide_eq_decide, hlt, hzero]
  constructor
  · intro h
    rw [h, zero_mul, zero_add]
    exact he0.2
  · intro h
    by_contra hne
    nlinarith [show 1 ≤ d % 2 ^ n by omega]

end

end SubFlags
