import Mathlib.Tactic

/-!
# Bit sets

`SmallBitSet`: a set of numbers as words of 64 bits. `first_set` looks for the first word
that is not zero, and adds the number of that word, not of its first bit, to the position
of the bit in it: it finds the lowest number of the set where that is below 64, and
otherwise returns another one (`firstSet_eq`).
-/

namespace Tpde.Util

/-- The words of a set, and the number of its bits. -/
structure SmallBitSet where
  data : List (BitVec 64) := []
  bitSize : ℕ := 0
  deriving DecidableEq, Repr

namespace SmallBitSet

/-- `resize`. The bits of the last word that were not in use are cleared. -/
def resize (s : SmallBitSet) (bitSize : ℕ) : SmallBitSet :=
  let byteSize := (bitSize + 63) / 64
  let data :=
    if bitSize > s.bitSize ∧ s.bitSize ≠ 0 then
      s.data.modify (s.data.length - 1) (· &&& ((1 : BitVec 64) <<< (s.bitSize % 64) - 1))
    else s.data
  { data := data.take byteSize ++ List.replicate (byteSize - data.length) 0, bitSize }

/-- The bit of a number in its word. -/
def bit (idx : ℕ) : BitVec 64 := (1 : BitVec 64) <<< (idx % 64)

/-- `is_set`. -/
def isSet (s : SmallBitSet) (idx : ℕ) : Bool := (s.data.getD (idx / 64) 0).getLsbD (idx % 64)

/-- `mark_set`. -/
def markSet (s : SmallBitSet) (idx : ℕ) : SmallBitSet :=
  { s with data := s.data.modify (idx / 64) (· ||| bit idx) }

/-- `mark_unset`. -/
def markUnset (s : SmallBitSet) (idx : ℕ) : SmallBitSet :=
  { s with data := s.data.modify (idx / 64) (· &&& ~~~bit idx) }

/-- `first_set`. -/
def firstSet (s : SmallBitSet) : Option ℕ :=
  (s.data.findIdx? (· ≠ 0)).map fun i => i + (s.data.getD i 0).ctz.toNat

@[simp] theorem length_markSet (s : SmallBitSet) (idx : ℕ) : (s.markSet idx).data.length = s.data.length := by
  simp [markSet]

@[simp] theorem length_markUnset (s : SmallBitSet) (idx : ℕ) :
    (s.markUnset idx).data.length = s.data.length := by
  simp [markUnset]

theorem length_resize (bitSize : ℕ) : bitSize ≤ 64 * (({} : SmallBitSet).resize bitSize).data.length := by
  simp [resize]
  omega

theorem isSet_resize (bitSize idx : ℕ) : (({} : SmallBitSet).resize bitSize).isSet idx = false := by
  simp [resize, isSet, List.getD_eq_getElem?_getD, List.getElem?_replicate]
  split <;> simp

/-- A bit of a word that one operation changes. -/
theorem getLsbD_modify (data : List (BitVec 64)) (f : BitVec 64 → BitVec 64) (idx j : ℕ)
    (h : idx < 64 * data.length) :
    ((data.modify (idx / 64) f).getD (j / 64) 0).getLsbD (j % 64) =
      if j / 64 = idx / 64 then (f (data.getD (j / 64) 0)).getLsbD (j % 64)
        else (data.getD (j / 64) 0).getLsbD (j % 64) := by
  rw [List.getD_eq_getElem?_getD, List.getElem?_modify]
  by_cases hj : idx / 64 = j / 64
  · have hlt : j / 64 < data.length := by omega
    simp [hj, hlt]
  · simp [hj, Ne.symm hj]

theorem getLsbD_bit (idx j : ℕ) : (bit idx).getLsbD (j % 64) = decide (j % 64 = idx % 64) := by
  have hj : j % 64 < 64 := Nat.mod_lt _ (by decide)
  have hi : idx % 64 < 64 := Nat.mod_lt _ (by decide)
  rw [bit, BitVec.getLsbD_shiftLeft, show (1 : BitVec 64) = 1#64 from rfl, BitVec.getLsbD_one,
    Bool.eq_iff_iff]
  simp only [hj, decide_true, Bool.true_and, Bool.and_eq_true, Bool.not_eq_true', decide_eq_true_eq,
    decide_eq_false_iff_not]
  omega

theorem isSet_markSet (s : SmallBitSet) {idx : ℕ} (h : idx < 64 * s.data.length) (j : ℕ) :
    (s.markSet idx).isSet j = (decide (j = idx) || s.isSet j) := by
  rw [isSet, markSet, getLsbD_modify s.data _ idx j h, isSet]
  split
  case isTrue hj =>
    rw [BitVec.getLsbD_or, getLsbD_bit, Bool.or_comm,
      decide_eq_decide.mpr (show j % 64 = idx % 64 ↔ j = idx by omega)]
  case isFalse hj =>
    rw [decide_eq_false (by rintro rfl; exact hj rfl), Bool.false_or]

theorem isSet_markUnset (s : SmallBitSet) {idx : ℕ} (h : idx < 64 * s.data.length) (j : ℕ) :
    (s.markUnset idx).isSet j = (s.isSet j && decide (j ≠ idx)) := by
  have hj : j % 64 < 64 := Nat.mod_lt _ (by decide)
  rw [isSet, markUnset, getLsbD_modify s.data _ idx j h, isSet]
  split
  case isTrue heq =>
    rw [BitVec.getLsbD_and, BitVec.getLsbD_not, getLsbD_bit]
    simp [hj, show j % 64 = idx % 64 ↔ j = idx by omega]
  case isFalse hne =>
    rw [decide_eq_true (by rintro rfl; exact hne rfl), Bool.and_true]

/-- **What `first_set` returns, by the lowest number of the set.** -/
theorem firstSet_eq (s : SmallBitSet) {m : ℕ} (hm : s.isSet m = true) (hlow : ∀ j < m, s.isSet j = false) :
    s.firstSet = some (m / 64 + m % 64) := by
  have hlt : m / 64 < s.data.length := by
    by_contra h
    simp [isSet, List.getElem?_eq_none (show s.data.length ≤ m / 64 by omega)] at hm
  -- The words below that of `m` are zero, and its own is not.
  have hne : s.data.getD (m / 64) 0 ≠ 0 := by
    intro h0
    rw [isSet, h0] at hm
    simp at hm
  have hzero : ∀ i < m / 64, s.data.getD i 0 = 0 := by
    intro i hi
    apply BitVec.eq_of_getLsbD_eq
    intro k hk
    have := hlow (64 * i + k) (by omega)
    rw [isSet, show (64 * i + k) / 64 = i by omega, show (64 * i + k) % 64 = k by omega] at this
    simpa using this
  have hword : s.data.findIdx? (· ≠ 0) = some (m / 64) := by
    rw [List.findIdx?_eq_some_iff_getElem]
    refine ⟨hlt, by simpa [List.getD_eq_getElem?_getD, hlt] using hne, fun i hi => ?_⟩
    have := hzero i hi
    simpa [List.getD_eq_getElem?_getD, show i < s.data.length by omega] using this
  -- The lowest bit of the word is that of `m`.
  have hbit : (s.data.getD (m / 64) 0).ctz.toNat = m % 64 := by
    apply le_antisymm
    · by_contra h
      have := BitVec.getLsbD_false_of_lt_ctz (x := s.data.getD (m / 64) 0) (i := m % 64) (by omega)
      rw [isSet, this] at hm
      exact absurd hm (by decide)
    · by_contra h
      have htrue := BitVec.getLsbD_true_ctz_of_ne_zero hne
      have hctz := (s.data.getD (m / 64) 0).ctz.toNat
      have := hlow (64 * (m / 64) + (s.data.getD (m / 64) 0).ctz.toNat) (by omega)
      rw [isSet, show (64 * (m / 64) + (s.data.getD (m / 64) 0).ctz.toNat) / 64 = m / 64 by omega,
        show (64 * (m / 64) + (s.data.getD (m / 64) 0).ctz.toNat) % 64 =
          (s.data.getD (m / 64) 0).ctz.toNat by omega,
        htrue] at this
      exact absurd this (by decide)
  rw [firstSet, hword, Option.map_some, hbit]

/-- A set that is not empty has a lowest number. -/
theorem exists_lowest (s : SmallBitSet) {j : ℕ} (h : s.isSet j = true) :
    ∃ m ≤ j, s.isSet m = true ∧ ∀ i < m, s.isSet i = false := by
  have hex : ∃ i, s.isSet i = true := ⟨j, h⟩
  exact ⟨Nat.find hex, Nat.find_min' hex h, Nat.find_spec hex, fun i hi => by simpa using Nat.find_min hex hi⟩

end SmallBitSet

end Tpde.Util
