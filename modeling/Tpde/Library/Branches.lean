import Mathlib.Data.Int.Basic
import Mathlib.Tactic.Ring

/-!
# Branch instructions

The branches of AArch64: on a condition code, on a register that is zero or not, on a bit of
a register, and without a condition. Each has a distance in words, with as many bits as its
encoding has room for. Words between them are data or other instructions, which go on with
the next word.
-/

namespace Branches

/-- The flags and the general registers. -/
structure Cpu where
  n : Bool
  z : Bool
  c : Bool
  v : Bool
  reg : ℕ → BitVec 64

/-- Condition codes. -/
inductive Cond where
  | eq | ne | cs | cc | mi | pl | vs | vc | hi | ls | ge | lt | gt | le
  deriving DecidableEq, Repr

namespace Cond

def holds : Cond → Cpu → Bool
  | eq, s => s.z
  | ne, s => !s.z
  | cs, s => s.c
  | cc, s => !s.c
  | mi, s => s.n
  | pl, s => !s.n
  | vs, s => s.v
  | vc, s => !s.v
  | hi, s => s.c && !s.z
  | ls, s => !(s.c && !s.z)
  | ge, s => s.n == s.v
  | lt, s => !(s.n == s.v)
  | gt, s => !s.z && s.n == s.v
  | le, s => !(!s.z && s.n == s.v)

end Cond

/-- What a branch tests. A register is read with 32 or 64 bits. -/
inductive Test where
  | always
  | cond (c : Cond)
  | zero (is32 : Bool) (reg : ℕ)
  | nonzero (is32 : Bool) (reg : ℕ)
  | bitClear (reg : ℕ) (bit : Fin 64)
  | bitSet (reg : ℕ) (bit : Fin 64)
  deriving DecidableEq, Repr

namespace Test

/-- The value of a register that is compared with zero. -/
def read (s : Cpu) (is32 : Bool) (reg : ℕ) : ℕ := if is32 then (s.reg reg).toNat % 2 ^ 32
    else (s.reg reg).toNat

def holds (s : Cpu) : Test → Bool
  | always => true
  | cond c => c.holds s
  | zero is32 reg => read s is32 reg == 0
  | nonzero is32 reg => !(read s is32 reg == 0)
  | bitClear reg bit => !(s.reg reg).getLsbD bit
  | bitSet reg bit => (s.reg reg).getLsbD bit

/-- The bits of the distance. -/
def bits : Test → ℕ
  | always => 26
  | cond _ | zero .. | nonzero .. => 19
  | bitClear .. | bitSet .. => 14

theorem bits_pos (t : Test) : 0 < t.bits := by cases t <;> simp [bits]

theorem exists_holds (t : Test) : ∃ s, t.holds s = true := by
  have hcond (c : Cond) : ∃ n z c' v : Bool, c.holds ⟨n, z, c', v, fun _ => 0⟩ = true := by cases c <;> decide
  have hzero : ∃ s : Cpu, s.reg = fun _ => 0 := ⟨⟨false, false, false, false, _⟩, rfl⟩
  have hones : ∃ s : Cpu, s.reg = fun _ => BitVec.allOnes 64 := ⟨⟨false, false, false, false, _⟩, rfl⟩
  obtain ⟨z, hz⟩ := hzero
  obtain ⟨o, ho⟩ := hones
  cases t with
  | always => exact ⟨z, rfl⟩
  | cond c =>
    obtain ⟨n, z, c', v, h⟩ := hcond c
    exact ⟨_, h⟩
  | zero is32 reg => exact ⟨z, by cases is32 <;> simp [holds, read, hz]⟩
  | nonzero is32 reg => exact ⟨o, by cases is32 <;> simp [holds, read, ho]⟩
  | bitClear reg bit => exact ⟨z, by simp [holds, hz]⟩
  | bitSet reg bit =>
    refine ⟨o, ?_⟩
    rw [holds, ho, BitVec.getLsbD_allOnes]
    exact decide_eq_true bit.isLt

end Test

/-- A word of a program: a branch with its distance in words, data, a branch of which not only the distance
was overwritten, or another instruction. -/
inductive Inst (Op : Type*) where
  | branch (t : Test) (imm : ℤ)
  | data (w : BitVec 32)
  | garbled
  | op (o : Op)
  deriving DecidableEq, Repr

/-- The distances with some bits. -/
def Fits (bits : ℕ) (imm : ℤ) : Prop := -2 ^ (bits - 1) ≤ imm ∧ imm < 2 ^ (bits - 1)

instance (bits : ℕ) (imm : ℤ) : Decidable (Fits bits imm) := inferInstanceAs (Decidable (_ ∧ _))

variable {Op : Type*}

/-- The encoding of a branch, if its distance fits. -/
def encode (t : Test) (imm : ℤ) : Option (Inst Op) := if Fits t.bits imm then some (.branch t imm) else none

theorem encode_eq {t : Test} {imm : ℤ} (h : Fits t.bits imm) :
    (encode t imm : Option (Inst Op)) = some (.branch t imm) := if_pos h

/-- Where control goes from a word. -/
def next (s : Cpu) (pc : ℕ) : Inst Op → Option ℤ
  | .branch t imm => some (if t.holds s then pc + 4 * imm else pc + 4)
  | .op _ => some (pc + 4)
  | .data _ | .garbled => none

/-- Control that is at `pc` in a part of the program gets to `dest` by the words of this part. -/
inductive Leads (code : ℕ → Inst Op) (s : Cpu) (lo hi : ℕ) : ℕ → ℤ → Prop
  | last {pc : ℕ} {dest : ℤ} (hlo : lo ≤ pc) (hhi : pc < hi) (h : next s pc (code pc) = some dest) :
    Leads code s lo hi pc dest
  | step {pc pc' : ℕ} {dest : ℤ} (hlo : lo ≤ pc) (hhi : pc < hi) (h : next s pc (code pc) = some (pc' : ℤ))
    (hrest : Leads code s lo hi pc' dest) : Leads code s lo hi pc dest

variable {code : ℕ → Inst Op} {s : Cpu} {lo hi pc : ℕ} {dest : ℤ}

/-- Control stays at multiples of a word. -/
theorem next_emod {i : Inst Op} {pc' : ℕ} (h : next s pc i = some (pc' : ℤ)) : pc' % 4 = pc % 4 := by
  cases i with
  | branch t imm =>
    have h := Option.some.inj h
    split at h <;> omega
  | op o =>
    have h := Option.some.inj h
    omega
  | data w => cases h
  | garbled => cases h

/-- Control gets only where a word of the part goes. -/
theorem Leads.exists_next (h : Leads code s lo hi pc dest) :
    ∃ p, p % 4 = pc % 4 ∧ lo ≤ p ∧ p < hi ∧ next s p (code p) = some dest := by
  induction h with
  | last hlo hhi h => exact ⟨_, rfl, hlo, hhi, h⟩
  | step _ _ h _ ih =>
    obtain ⟨p, hp, hlo, hhi, hdest⟩ := ih
    exact ⟨p, hp.trans (next_emod h), hlo, hhi, hdest⟩

/-- A part of a part. -/
theorem Leads.mono {lo' hi' : ℕ} (h : Leads code s lo hi pc dest) (hlo : lo' ≤ lo) (hhi : hi ≤ hi') :
    Leads code s lo' hi' pc dest := by
  induction h with
  | last h₁ h₂ h => exact .last (hlo.trans h₁) (h₂.trans_le hhi) h
  | step h₁ h₂ h _ ih => exact .step (hlo.trans h₁) (h₂.trans_le hhi) h ih

end Branches
