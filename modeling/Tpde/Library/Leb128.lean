import Mathlib.Tactic

/-!
# LEB128

Numbers as bytes of seven bits each, the low ones first. Every byte but the last has its
high bit set. In the signed variant the sign is the second highest bit of the last byte.
A reader gives the number at the start of some bytes, and the bytes behind it.
-/

namespace Leb128

/-- An unsigned number, and what is behind it. -/
def readUleb : List UInt8 → Option (ℕ × List UInt8)
  | [] => none
  | b :: bs =>
    if b.toNat < 128 then some (b.toNat, bs)
    else (readUleb bs).map fun x => (b.toNat - 128 + 128 * x.1, x.2)

/-- A signed number, and what is behind it. -/
def readSleb : List UInt8 → Option (ℤ × List UInt8)
  | [] => none
  | b :: bs =>
    if b.toNat < 64 then some (b.toNat, bs)
    else if b.toNat < 128 then some (b.toNat - 128, bs)
    else (readSleb bs).map fun x => (b.toNat - 128 + 128 * x.1, x.2)

/-- The bytes are those of the unsigned number, whatever is behind them. -/
def IsUleb (n : ℕ) (bs : List UInt8) : Prop := ∀ rest, readUleb (bs ++ rest) = some (n, rest)

/-- The bytes are read as the signed number, whatever is behind them. -/
def IsSleb (v : ℤ) (bs : List UInt8) : Prop := ∀ rest, readSleb (bs ++ rest) = some (v, rest)

section
variable {b : UInt8} {bs : List UInt8}

theorem isUleb_last (h : b.toNat < 128) : IsUleb b.toNat [b] := fun rest => by
  simp [readUleb, h]

theorem IsUleb.cons {n : ℕ} (hb : 128 ≤ b.toNat) (h : IsUleb n bs) :
    IsUleb (b.toNat - 128 + 128 * n) (b :: bs) := fun rest => by
  simp [readUleb, show ¬ b.toNat < 128 by omega, h rest]

theorem isSleb_last (h : b.toNat < 64) : IsSleb b.toNat [b] := fun rest => by
  simp [readSleb, h]

theorem isSleb_last_neg (h : 64 ≤ b.toNat) (h' : b.toNat < 128) : IsSleb (b.toNat - 128) [b] := fun rest => by
  simp [readSleb, show ¬ b.toNat < 64 by omega, h']

theorem IsSleb.cons {v : ℤ} (hb : 128 ≤ b.toNat) (h : IsSleb v bs) :
    IsSleb (b.toNat - 128 + 128 * v) (b :: bs) := fun rest => by
  simp [readSleb, show ¬ b.toNat < 64 by omega, show ¬ b.toNat < 128 by omega, h rest]

/-- Reading leaves a proper suffix. -/
theorem readSleb_suffix : ∀ {bs : List UInt8} {v : ℤ} {rest : List UInt8}, readSleb bs = some (v, rest) →
    ∃ bs', bs' ≠ [] ∧ bs = bs' ++ rest
  | [], _, _, h => by cases h
  | b :: bs, v, rest, h => by
    rw [readSleb] at h
    split at h
    · cases h
      exact ⟨[b], List.cons_ne_nil _ _, rfl⟩
    · split at h
      · cases h
        exact ⟨[b], List.cons_ne_nil _ _, rfl⟩
      · obtain ⟨x, hx, hv⟩ := Option.map_eq_some_iff.mp h
        obtain ⟨bs', -, rfl⟩ := readSleb_suffix (show readSleb bs = some (x.1, x.2) from hx)
        cases hv
        exact ⟨b :: bs', List.cons_ne_nil _ _, rfl⟩

/-- What is read as zero ends with a zero byte. -/
theorem readSleb_zero : ∀ {bs : List UInt8} {rest : List UInt8}, readSleb bs = some (0, rest) →
    ∃ bs', bs = bs' ++ 0 :: rest
  | [], _, h => by cases h
  | b :: bs, rest, h => by
    rw [readSleb] at h
    split at h
    · simp only [Option.some.injEq, Prod.mk.injEq] at h
      have hb : b = 0 := UInt8.toNat_inj.mp (by simpa using h.1)
      exact ⟨[], by rw [hb, h.2]; rfl⟩
    · split at h
      · simp only [Option.some.injEq, Prod.mk.injEq] at h
        omega
      · obtain ⟨x, hx, hv⟩ := Option.map_eq_some_iff.mp h
        simp only [Prod.mk.injEq] at hv
        have hx0 : x.1 = 0 := by
          have := b.toNat_lt
          omega
        obtain ⟨bs', rfl⟩ := readSleb_zero (show readSleb bs = some (0, rest) by rw [hx, ← hx0, ← hv.2])
        exact ⟨b :: bs', rfl⟩

end

end Leb128
