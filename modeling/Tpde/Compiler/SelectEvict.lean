import Mathlib.Tactic
import Mathlib.Data.Prod.Lex

/-!
# The register to evict

`select_reg_evict`: of the values in registers it should evict a variable reference if there is one,
else one that is spilled, then the one that is used last, then the one with the fewest references left.
The criteria are packed into a number, where a nearer last use counts more, a last use in the current
block sets the bit of the spilled, and no references left set the lowest bit of the distance.
`selectRegEvict_correct_iff` says when the register is the right one nevertheless.
-/

namespace Tpde.Compiler

/-- A register: those of the two banks, 32 each. -/
abbrev EvictReg := Fin 64

/-! ### The model -/

/-- `INVALID_VAL_LOCAL_IDX`. -/
def invalidValLocalIdx : BitVec 32 := ~~~0

/-- `RegisterFile::Assignment`. -/
structure RegAssignment where
  localIdx : BitVec 32
  part : ℕ

/-- What a `ValueAssignment` says of the uses of a value and of its parts. -/
structure PartAssignment where
  referencesLeft : BitVec 32
  pendingFree : Bool
  variableRef : Bool
  parts : ℕ → BitVec 16

namespace PartAssignment

variable (va : PartAssignment) (part : ℕ)

/-- `get_reg`. -/
def getReg : BitVec 8 := (va.parts part).setWidth 8

/-- `modified`. -/
def modified : Bool := (va.parts part).getLsbD 9

/-- `stack_valid`. -/
def stackValid : Bool := !(va.modified part)

/-- `register_valid`. -/
def registerValid : Bool := (va.parts part).getLsbD 11

/-- What `evict_reg` leaves of a part: `spill` makes the stack slot valid, but for a variable, and the
register is not. -/
def evicted : PartAssignment :=
  let data := va.parts part
  let data := if !va.stackValid part && !va.variableRef then data &&& ~~~((1 : BitVec 16) <<< 9) else data
  { va with parts := Function.update va.parts part (data &&& ~~~((1 : BitVec 16) <<< 11)) }

end PartAssignment

/-- Each register that is in use and not locked holds a part of a value, which knows the register. -/
def Holds (used : BitVec 64) (lockCounts : EvictReg → BitVec 8) (assignments : EvictReg → RegAssignment)
    (valAssignment : BitVec 32 → Option PartAssignment) : Prop :=
  ∀ reg : EvictReg, used.getLsbD reg = true → lockCounts reg = 0 →
    (assignments reg).localIdx ≠ invalidValLocalIdx ∧ ∃ va,
      valAssignment (assignments reg).localIdx = some va ∧
      va.registerValid (assignments reg).part = true ∧ (va.getReg (assignments reg).part).toNat = reg

/-- An eviction leaves the other registers as they are. -/
theorem Holds.evict {used : BitVec 64} {lockCounts : EvictReg → BitVec 8}
    {assignments : EvictReg → RegAssignment}
    {valAssignment : BitVec 32 → Option PartAssignment}
    (h : Holds used lockCounts assignments valAssignment) (reg : EvictReg)
    {va : PartAssignment} (hva : valAssignment (assignments reg).localIdx = some va)
    (hreg : (va.getReg (assignments reg).part).toNat = reg) :
    Holds (used &&& ~~~((1 : BitVec 64) <<< reg.val)) lockCounts assignments
      (Function.update valAssignment (assignments reg).localIdx
        (some (va.evicted (assignments reg).part))) := by
  intro reg' hused hlock
  rw [BitVec.getLsbD_and, Bool.and_eq_true] at hused
  obtain ⟨hvalid, va', hva', hrv, hreg'⟩ := h reg' hused.1 hlock
  have hne : reg' ≠ reg := by
    rintro rfl
    simp at hused
  refine ⟨hvalid, ?_⟩
  by_cases hidx : (assignments reg').localIdx = (assignments reg).localIdx
  · -- Another part of the same value.
    rw [hidx, hva] at hva'
    cases hva'
    have hpart : (assignments reg').part ≠ (assignments reg).part := by
      intro heq
      rw [heq, hreg] at hreg'
      exact hne (Fin.ext hreg'.symm)
    have hkeep : (va.evicted (assignments reg).part).parts (assignments reg').part =
      va.parts (assignments reg').part :=
      Function.update_of_ne hpart ..
    refine ⟨_, by rw [hidx, Function.update_self], ?_, ?_⟩
    · rw [PartAssignment.registerValid, hkeep]
      exact hrv
    · rw [PartAssignment.getReg, hkeep]
      exact hreg'
  · exact ⟨va', by rw [Function.update_of_ne hidx, hva'], hrv, hreg'⟩

/-- The register file, the assignments of the values, the last blocks of their live ranges, and the
current block. -/
structure RegFileState where
  used : BitVec 64
  lockCounts : EvictReg → BitVec 8
  assignments : EvictReg → RegAssignment
  valAssignment : BitVec 32 → Option PartAssignment
  last : BitVec 32 → BitVec 32
  curBlockIdx : BitVec 32
  holds : Holds used lockCounts assignments valAssignment

/-- What is read of a value to choose a register. -/
structure Victim where
  variableRef : Bool
  stackValid : Bool
  last : BitVec 32
  refsLeft : BitVec 32
  deriving DecidableEq, Repr

namespace RegFileState

variable (s : RegFileState)

/-- `bank_regs`. -/
def bankRegs (bank : Fin 2) : BitVec 64 := ((1 <<< 32) - 1) <<< (bank.val * 32)

/-- The registers of the bank that are in use and not excluded, as `BitSetIterator` goes over them. -/
def candidates (bank : Fin 2) (exclusionMask : BitVec 64) : List EvictReg :=
  (List.finRange 64).filter fun reg => (s.used &&& bankRegs bank &&& ~~~exclusionMask).getLsbD reg

/-- `is_fixed`. -/
def isFixed (reg : EvictReg) : Bool := s.lockCounts reg != 0

/-- The value in a register, if it holds one and not a temporary. -/
def victim (reg : EvictReg) : Option Victim :=
  let ⟨localIdx, part⟩ := s.assignments reg
  if localIdx = invalidValLocalIdx then none
  else (s.valAssignment localIdx).map fun va =>
    { variableRef := va.variableRef, stackValid := va.stackValid part, last := s.last localIdx,
      refsLeft := if va.pendingFree then 0 else va.referencesLeft }

end RegFileState

/-- The score of a value. -/
def Victim.score (v : Victim) (curBlockIdx : BitVec 32) : BitVec 32 :=
  let score : BitVec 32 := if v.stackValid then (1 : BitVec 32) <<< 31 else 0
  let lastUseDist := v.last - curBlockIdx
  let score := score ||| ((if lastUseDist < 0x8000 then 0x8000 - lastUseDist else 0) <<< 16)
  score ||| (if v.refsLeft < 0xffff then 0x10000 - v.refsLeft else 1)

namespace RegFileState

variable (s : RegFileState)

/-- The loop of `select_reg_evict`: the first variable reference, or the first value with the highest
score. -/
def search (s : RegFileState) : List EvictReg → Option EvictReg → BitVec 32 → Option (Option EvictReg)
  | [], candidate, _ => some candidate
  | reg :: regs, candidate, maxScore =>
    if s.isFixed reg then s.search regs candidate maxScore
    else
      match s.victim reg with
      | none => none
      | some v =>
        if v.variableRef then some (some reg)
        else if maxScore < v.score s.curBlockIdx then s.search regs (some reg) (v.score s.curBlockIdx)
        else s.search regs candidate maxScore

/-- `evict_reg`. -/
def evictReg (reg : EvictReg) : Option RegFileState :=
  let localIdx := (s.assignments reg).localIdx
  let part := (s.assignments reg).part
  if s.isFixed reg ∨ localIdx = invalidValLocalIdx then none
  else
    match hva : s.valAssignment localIdx with
    | none => none
    | some va =>
      if h : va.registerValid part = true ∧ (va.getReg part).toNat = reg then
        some { s with
          used := s.used &&& ~~~((1 : BitVec 64) <<< reg.val)
          valAssignment := Function.update s.valAssignment localIdx (some (va.evicted part))
          holds := s.holds.evict reg hva h.2 }
      else none

/-- `select_reg_evict`. -/
def selectRegEvict (bank : Fin 2) (exclusionMask : BitVec 64) : Option (EvictReg × RegFileState) :=
  (s.search (s.candidates bank exclusionMask) none 0).join.bind fun candidate =>
    (s.evictReg candidate).map fun s' => (candidate, s')

/-! ### The right register -/

/-- A register of the bank that is in use, neither excluded nor locked. -/
def Evictable (bank : Fin 2) (exclusionMask : BitVec 64) (reg : EvictReg) : Prop :=
  s.used.getLsbD reg = true ∧ reg.val / 32 = bank ∧ exclusionMask.getLsbD reg = false ∧ s.isFixed reg = false

end RegFileState

/-- The priority of a value: a variable reference, spilled, used last, the fewest references left. -/
def Victim.priority (v : Victim) : Bool ×ₗ Bool ×ₗ ℕ ×ₗ ℕᵒᵈ :=
  toLex (v.variableRef, toLex (v.stackValid, toLex (v.last.toNat, OrderDual.toDual v.refsLeft.toNat)))

/-- How the values rank if they are not variable references: first those that are spilled or used last
in the current block; then by how near the last use is, with none for the current block and from 2^15
blocks on, and an even distance with no references left counted as one block less; then by the
references left, with all from 2^16 - 1 on alike, and none as the most. -/
def Victim.rank (v : Victim) (curBlockIdx : BitVec 32) : Bool ×ₗ ℕ ×ₗ ℕ :=
  let dist := (v.last - curBlockIdx).toNat
  let near := if 0 < dist ∧ dist < 2 ^ 15 then 2 ^ 15 - dist else 0
  toLex (v.stackValid || v.last == curBlockIdx,
    toLex (if v.refsLeft = 0 then 2 * (near / 2) + 1 else near, if v.refsLeft = 0 then 0
      else 2 ^ 16 - min v.refsLeft.toNat (2 ^ 16 - 1)))

namespace RegFileState

variable (s : RegFileState) (bank : Fin 2) (exclusionMask : BitVec 64)

/-- No register that could be evicted has a higher priority. -/
def IsBest (reg : EvictReg) (v : Victim) : Prop :=
  s.Evictable bank exclusionMask reg ∧ s.victim reg = some v ∧
    ∀ reg' v', s.Evictable bank exclusionMask reg' → s.victim reg' = some v' → v'.priority ≤ v.priority

/-- The register that is evicted is one of the best. -/
def Correct : Prop := ∃ reg s' v, s.selectRegEvict bank exclusionMask = some (reg, s') ∧
    s.IsBest bank exclusionMask reg v

/-- The condition: a register that is best is the first one with a variable reference, or no register
has one, and none ranks above it, nor as high in front of it. -/
def RanksAlike : Prop :=
  ∃ reg v, s.IsBest bank exclusionMask reg v ∧
    ∀ reg' v', s.Evictable bank exclusionMask reg' → s.victim reg' = some v' →
      if v.variableRef then v'.variableRef = true → reg ≤ reg'
      else v'.rank s.curBlockIdx < v.rank s.curBlockIdx ∨ v'.rank s.curBlockIdx = v.rank s.curBlockIdx ∧
        reg ≤ reg'

end RegFileState

/-! ### The score -/

namespace Victim

variable (v w : Victim) (curBlockIdx : BitVec 32)

/-- The references left in the score: all bits of the lower half, or the lowest bit of the upper one. -/
theorem score_refs : (if v.refsLeft < 0xffff then 0x10000 - v.refsLeft else 1 : BitVec 32).toNat =
    2 ^ 16 * (if v.refsLeft = 0 then 1 else 0) + if v.refsLeft = 0 then 0
      else 2 ^ 16 - min v.refsLeft.toNat (2 ^ 16 - 1) := by
  rcases eq_or_ne v.refsLeft 0 with hzero | hne
  · rw [hzero]
    rfl
  · have hpos : v.refsLeft.toNat ≠ 0 := fun h => hne (BitVec.eq_of_toNat_eq h)
    rw [if_neg hne, if_neg hne]
    split
    case isTrue hlt =>
      have hlt : v.refsLeft.toNat < 0xffff := hlt
      rw [BitVec.toNat_sub, show (0x10000 : BitVec 32).toNat = 2 ^ 16 from rfl]
      omega
    case isFalse hge =>
      have hge : ¬ v.refsLeft.toNat < 0xffff := hge
      rw [show (1 : BitVec 32).toNat = 1 from rfl]
      omega

/-- How near the last use is, in the score. -/
theorem score_dist {dist : BitVec 32} :
    ((if dist < 0x8000 then 0x8000 - dist else 0 : BitVec 32) <<< 16).toNat =
    2 ^ 31 * (if dist = 0 then 1 else 0) + 2 ^ 16 * if 0 < dist.toNat ∧ dist.toNat < 2 ^ 15 then
      2 ^ 15 - dist.toNat else 0 := by
  rcases eq_or_ne dist 0 with rfl | hne
  · rfl
  · have hpos : dist.toNat ≠ 0 := fun h => hne (BitVec.eq_of_toNat_eq h)
    rw [if_neg hne]
    split
    case isTrue hlt =>
      have hlt : dist.toNat < 0x8000 := hlt
      rw [if_pos (by omega), BitVec.toNat_shiftLeft, BitVec.toNat_sub,
        show (0x8000 : BitVec 32).toNat = 2 ^ 15 from rfl,
        Nat.shiftLeft_eq]
      omega
    case isFalse hge =>
      have hge : ¬ dist.toNat < 0x8000 := hge
      rw [if_neg (by omega)]
      rfl

/-- An or of two numbers, in two digits. -/
theorem lor_digits {a b n x y : ℕ} (hx : x < 2 ^ n) (hy : y < 2 ^ n) :
    (2 ^ n * a + x) ||| (2 ^ n * b + y) = 2 ^ n * (a ||| b) + (x ||| y) := by
  have hpos : 0 < 2 ^ n := Nat.two_pow_pos n
  have hdiv (k : ℕ) {z : ℕ} (hz : z < 2 ^ n) : (2 ^ n * k + z) / 2 ^ n = k := by
    rw [Nat.mul_add_div hpos, Nat.div_eq_of_lt hz, Nat.add_zero]
  have hmod (k : ℕ) {z : ℕ} (hz : z < 2 ^ n) : (2 ^ n * k + z) % 2 ^ n = z := by
    rw [Nat.mul_add_mod, Nat.mod_eq_of_lt hz]
  calc (2 ^ n * a + x) ||| (2 ^ n * b + y)
      = 2 ^ n * (((2 ^ n * a + x) ||| (2 ^ n * b + y)) / 2 ^ n) +
        ((2 ^ n * a + x) ||| (2 ^ n * b + y)) % 2 ^ n := (Nat.div_add_mod ..).symm
    _ = 2 ^ n * (a ||| b) + (x ||| y) := by
      rw [Nat.or_div_two_pow, Nat.or_mod_two_pow, hdiv a hx, hdiv b hy, hmod a hx, hmod b hy]

theorem lor_one (n : ℕ) : n ||| 1 = 2 * (n / 2) + 1 := by
  have hdigits :=
    lor_digits (a := n / 2) (b := 0) (n := 1) (x := n % 2) (y := 1) (Nat.mod_lt _ (by decide)) (by decide)
  have hlow : n % 2 ||| 1 = 1 := by
    rcases Nat.mod_two_eq_zero_or_one n with h | h <;> rw [h] <;> rfl
  rw [hlow, Nat.or_zero, Nat.pow_one, Nat.div_add_mod] at hdigits
  simpa using hdigits

/-- The place of a value: the bit of the spilled, the distance and the references. -/
def digits : Bool × ℕ × ℕ :=
  ((ofLex (v.rank curBlockIdx)).1, (ofLex (ofLex (v.rank curBlockIdx)).2).1,
    (ofLex (ofLex (v.rank curBlockIdx)).2).2)

theorem score_toNat : (v.score curBlockIdx).toNat =
    2 ^ 31 * (v.digits curBlockIdx).1.toNat + 2 ^ 16 * (v.digits curBlockIdx).2.1 +
      (v.digits curBlockIdx).2.2 := by
  have hdist : v.last - curBlockIdx = 0 ↔ v.last = curBlockIdx := by
    rw [BitVec.sub_eq_iff_eq_add, show (0 : BitVec 32) + curBlockIdx = curBlockIdx from BitVec.zero_add _]
  have hspilled :
    (if v.stackValid then (1 : BitVec 32) <<< 31 else 0).toNat = 2 ^ 31 * v.stackValid.toNat := by
    cases v.stackValid <;> rfl
  have hnear : (if 0 < (v.last - curBlockIdx).toNat ∧ (v.last - curBlockIdx).toNat < 2 ^ 15 then
    2 ^ 15 - (v.last - curBlockIdx).toNat
      else 0) < 2 ^ 15 := by
    split <;> omega
  have hlow : (if v.refsLeft = 0 then 0 else 2 ^ 16 - min v.refsLeft.toNat (2 ^ 16 - 1)) < 2 ^ 16 := by
    split
    case isTrue => decide
    case isFalse hne =>
      have hpos : v.refsLeft.toNat ≠ 0 := fun h => hne (BitVec.eq_of_toNat_eq h)
      omega
  rw [score, BitVec.toNat_or, BitVec.toNat_or, score_refs, score_dist, hspilled, digits, rank]
  simp only [ofLex_toLex, hdist]
  generalize (if 0 < (v.last - curBlockIdx).toNat ∧ (v.last - curBlockIdx).toNat < 2 ^ 15 then
    2 ^ 15 - (v.last - curBlockIdx).toNat
    else 0) = near at hnear ⊢
  generalize (if v.refsLeft = 0 then 0 else 2 ^ 16 - min v.refsLeft.toNat (2 ^ 16 - 1)) = low at hlow ⊢
  -- The upper bits, then the lower half.
  have hupper :
    2 ^ 31 * v.stackValid.toNat ||| (2 ^ 31 * (if v.last = curBlockIdx then 1 else 0) + 2 ^ 16 * near) =
      2 ^ 31 * (v.stackValid || v.last == curBlockIdx).toNat + 2 ^ 16 * near := by
    have hdigits :=
      lor_digits (a := v.stackValid.toNat) (b := if v.last = curBlockIdx then 1 else 0) (n := 31) (x := 0)
      (y := 2 ^ 16 * near) (by decide) (by omega)
    rw [Nat.add_zero, Nat.zero_or] at hdigits
    rw [hdigits]
    congr 2
    by_cases heq : v.last = curBlockIdx
    · rw [if_pos heq, beq_iff_eq.mpr heq, Bool.or_true]
      cases v.stackValid <;> rfl
    · rw [if_neg heq, beq_eq_false_iff_ne.mpr heq, Bool.or_false, Nat.or_zero]
  rw [hupper]
  generalize (v.stackValid || v.last == curBlockIdx).toNat = upper
  by_cases hrefs : v.refsLeft = 0
  · rw [if_pos hrefs, if_pos hrefs]
    have hdigits :=
      lor_digits (a := 2 ^ 15 * upper + near) (b := 1) (n := 16) (x := 0) (y := low) (by decide) hlow
    have hone := lor_one (2 ^ 15 * upper + near)
    rw [Nat.zero_or, hone] at hdigits
    rw [show 2 ^ 31 * upper + 2 ^ 16 * near = 2 ^ 16 * (2 ^ 15 * upper + near) + 0 by ring, hdigits]
    omega
  · rw [if_neg hrefs, if_neg hrefs]
    have hdigits :=
      lor_digits (a := 2 ^ 15 * upper + near) (b := 0) (n := 16) (x := 0) (y := low) (by decide) hlow
    rw [Nat.zero_or, Nat.or_zero] at hdigits
    rw [show 2 ^ 31 * upper + 2 ^ 16 * near = 2 ^ 16 * (2 ^ 15 * upper + near) + 0 by ring, hdigits]
    omega

theorem digits_lt : (v.digits curBlockIdx).2.1 < 2 ^ 15 ∧ (v.digits curBlockIdx).2.2 < 2 ^ 16 := by
  simp only [digits, rank, ofLex_toLex]
  constructor
  · split_ifs <;> omega
  · split
    case isTrue => decide
    case isFalse hne =>
      have hpos : v.refsLeft.toNat ≠ 0 := fun h => hne (BitVec.eq_of_toNat_eq h)
      omega

/-- **The score compares like the rank.** -/
theorem score_lt_iff : v.score curBlockIdx < w.score curBlockIdx ↔
    v.rank curBlockIdx < w.rank curBlockIdx := by
  obtain ⟨hv₁, hv₂⟩ := v.digits_lt curBlockIdx
  obtain ⟨hw₁, hw₂⟩ := w.digits_lt curBlockIdx
  rw [BitVec.lt_def, score_toNat, score_toNat, Prod.Lex.lt_iff, Prod.Lex.lt_iff]
  change _ ↔ (v.digits curBlockIdx).1 < (w.digits curBlockIdx).1 ∨
    (v.digits curBlockIdx).1 = (w.digits curBlockIdx).1 ∧
    ((v.digits curBlockIdx).2.1 < (w.digits curBlockIdx).2.1 ∨
      (v.digits curBlockIdx).2.1 = (w.digits curBlockIdx).2.1 ∧
      (v.digits curBlockIdx).2.2 < (w.digits curBlockIdx).2.2)
  generalize v.digits curBlockIdx = d at hv₁ hv₂ ⊢
  generalize w.digits curBlockIdx = e at hw₁ hw₂ ⊢
  have hbool : ∀ b c : Bool, (b < c ↔ b.toNat < c.toNat) ∧ (b = c ↔ b.toNat = c.toNat) := by decide
  rw [(hbool d.1 e.1).1, (hbool d.1 e.1).2]
  omega

theorem score_eq_iff : v.score curBlockIdx = w.score curBlockIdx ↔
    v.rank curBlockIdx = w.rank curBlockIdx := by
  have hlt := v.score_lt_iff w curBlockIdx
  have hgt := w.score_lt_iff v curBlockIdx
  constructor
  · intro heq
    rw [heq] at hlt hgt
    exact le_antisymm (not_lt.mp fun h => BitVec.lt_irrefl _ (hgt.mpr h))
      (not_lt.mp fun h => BitVec.lt_irrefl _ (hlt.mpr h))
  · intro heq
    rw [heq] at hlt hgt
    exact BitVec.le_antisymm (BitVec.not_lt.mp fun h => lt_irrefl _ (hgt.mp h))
      (BitVec.not_lt.mp fun h => lt_irrefl _ (hlt.mp h))

/-- No score is zero. -/
theorem score_pos : 0 < v.score curBlockIdx := by
  rw [BitVec.lt_def, score_toNat, digits, rank]
  simp only [ofLex_toLex, BitVec.ofNat_eq_ofNat, BitVec.toNat_ofNat]
  split_ifs <;> omega

end Victim

/-! ### The search -/

namespace RegFileState

variable {s : RegFileState} {bank : Fin 2} {exclusionMask : BitVec 64} {regs : List EvictReg}
    {candidate : Option EvictReg}
  {maxScore : BitVec 32}

/-- The first variable reference ends the search. -/
theorem search_variableRef (hval : ∀ reg ∈ regs, s.isFixed reg = false → ∃ v, s.victim reg = some v)
    (hsorted : regs.Pairwise (· < ·))
    {reg₀ : EvictReg} {v₀ : Victim} (hmem : reg₀ ∈ regs) (hfree : s.isFixed reg₀ = false)
    (hv₀ : s.victim reg₀ = some v₀)
    (href : v₀.variableRef = true) :
    ∃ reg v, s.search regs candidate maxScore = some (some reg) ∧ reg ∈ regs ∧ s.isFixed reg = false ∧
      s.victim reg = some v ∧
      v.variableRef = true ∧ ∀ reg' ∈ regs, ∀ v', s.isFixed reg' = false → s.victim reg' = some v' →
        v'.variableRef = true → reg ≤ reg' := by
  induction regs generalizing candidate maxScore with
  | nil => cases hmem
  | cons r rs ih =>
    obtain ⟨hbelow, hsorted⟩ := List.pairwise_cons.mp hsorted
    -- If `r` is no variable reference, the search goes on.
    have hrest (hno : ∀ v, s.isFixed r = false → s.victim r = some v → v.variableRef = false) :
        ∀ candidate maxScore, ∃ reg v, s.search rs candidate maxScore = some (some reg) ∧
          reg ∈ r :: rs ∧ s.isFixed reg = false ∧
          s.victim reg = some v ∧ v.variableRef = true ∧
          ∀ reg' ∈ r :: rs, ∀ v', s.isFixed reg' = false → s.victim reg' = some v' →
            v'.variableRef = true → reg ≤ reg' := by
      intro candidate maxScore
      have hmem : reg₀ ∈ rs := by
        rcases List.mem_cons.mp hmem with rfl | hmem
        · rw [hno v₀ hfree hv₀] at href
          cases href
        · exact hmem
      obtain ⟨reg, v, hsearch, hin, hfix, hv, hvar, hfirst⟩ :=
        ih (fun reg hreg => hval reg (List.mem_cons_of_mem _ hreg)) hsorted hmem
      refine ⟨reg, v, hsearch, List.mem_cons_of_mem _ hin, hfix, hv, hvar,
        fun reg' hreg' v' hfix' hv' hvar' => ?_⟩
      rcases List.mem_cons.mp hreg' with rfl | hreg'
      · rw [hno v' hfix' hv'] at hvar'
        cases hvar'
      · exact hfirst reg' hreg' v' hfix' hv' hvar'
    rw [search]
    cases hfix : s.isFixed r with
    | true => exact hrest (fun v hfree _ => by rw [hfix] at hfree; cases hfree) _ _
    | false =>
      obtain ⟨v, hv⟩ := hval r List.mem_cons_self hfix
      simp only [hv]
      rw [if_neg Bool.false_ne_true]
      cases hvar : v.variableRef with
      | true =>
        refine ⟨r, v, rfl, List.mem_cons_self, hfix, hv, hvar, fun reg' hreg' _ _ _ _ => ?_⟩
        rcases List.mem_cons.mp hreg' with rfl | hreg'
        · exact le_rfl
        · exact (hbelow reg' hreg').le
      | false =>
        have hno : ∀ v', s.isFixed r = false → s.victim r = some v' → v'.variableRef = false := by
          intro v' _ hv'
          rw [hv] at hv'
          cases hv'
          exact hvar
        rw [if_neg Bool.false_ne_true]
        split
        · exact hrest hno _ _
        · exact hrest hno _ _

/-- Without variable references, the search returns the first register with the highest score, if one is
higher than the score so far. -/
theorem search_score (hval : ∀ reg ∈ regs, s.isFixed reg = false → ∃ v, s.victim reg = some v ∧
    v.variableRef = false)
    (hsorted : regs.Pairwise (· < ·)) (candidate : Option EvictReg) (maxScore : BitVec 32) :
    (s.search regs candidate maxScore = some candidate ∧
        ∀ reg ∈ regs, ∀ v, s.isFixed reg = false → s.victim reg = some v → v.score s.curBlockIdx ≤ maxScore) ∨
      ∃ reg v, s.search regs candidate maxScore = some (some reg) ∧ reg ∈ regs ∧ s.isFixed reg = false ∧
        s.victim reg = some v ∧
        maxScore < v.score s.curBlockIdx ∧ ∀ reg' ∈ regs, ∀ v', s.isFixed reg' = false →
          s.victim reg' = some v' →
          v'.score s.curBlockIdx < v.score s.curBlockIdx ∨
            v'.score s.curBlockIdx = v.score s.curBlockIdx ∧ reg ≤ reg' := by
  induction regs generalizing candidate maxScore with
  | nil => exact .inl ⟨rfl, fun _ h => nomatch h⟩
  | cons r rs ih =>
    obtain ⟨hbelow, hsorted⟩ := List.pairwise_cons.mp hsorted
    have ih := ih (fun reg hreg => hval reg (List.mem_cons_of_mem _ hreg)) hsorted
    rw [search]
    cases hfix : s.isFixed r with
    | true =>
      have hskip {reg : EvictReg} (hreg : reg ∈ r :: rs) (hfree : s.isFixed reg = false) : reg ∈ rs := by
        rcases List.mem_cons.mp hreg with rfl | hreg
        · rw [hfix] at hfree
          cases hfree
        · exact hreg
      rcases ih candidate maxScore with ⟨hres, hle⟩ | ⟨reg, v, hres, hmem, hfree, hv, hmax, hfirst⟩
      · exact .inl ⟨hres, fun reg hreg v hfree hv => hle reg (hskip hreg hfree) v hfree hv⟩
      · exact .inr ⟨reg, v, hres, List.mem_cons_of_mem _ hmem, hfree, hv, hmax,
          fun reg' hreg' v' hfree' hv' => hfirst reg' (hskip hreg' hfree') v' hfree' hv'⟩
    | false =>
      obtain ⟨w, hw, hvar⟩ := hval r List.mem_cons_self hfix
      simp only [hw, hvar, Bool.false_eq_true, if_false]
      have hown {v : Victim} (hv : s.victim r = some v) : v = w := Option.some.inj (hv.symm.trans hw)
      split
      case isTrue hmore =>
        rcases ih (some r) (w.score s.curBlockIdx) with ⟨hres, hle⟩ | ⟨reg, v, hres, hmem, hfree, hv,
          hmax, hfirst⟩
        · refine .inr ⟨r, w, hres, List.mem_cons_self, hfix, hw, hmore, fun reg' hreg' v' hfree' hv' => ?_⟩
          rcases List.mem_cons.mp hreg' with rfl | hreg'
          · exact .inr ⟨by rw [hown hv'], le_rfl⟩
          · have hle := hle reg' hreg' v' hfree' hv'
            rcases Nat.lt_or_eq_of_le hle with hlt | heq
            · exact .inl hlt
            · exact .inr ⟨BitVec.eq_of_toNat_eq heq, (hbelow reg' hreg').le⟩
        · refine .inr ⟨reg, v, hres, List.mem_cons_of_mem _ hmem, hfree, hv, BitVec.lt_trans hmore hmax,
            fun reg' hreg' v' hfree' hv' => ?_⟩
          rcases List.mem_cons.mp hreg' with rfl | hreg'
          · exact .inl (hown hv' ▸ hmax)
          · exact hfirst reg' hreg' v' hfree' hv'
      case isFalse hless =>
        have hless := BitVec.not_lt.mp hless
        rcases ih candidate maxScore with ⟨hres, hle⟩ | ⟨reg, v, hres, hmem, hfree, hv, hmax, hfirst⟩
        · refine .inl ⟨hres, fun reg' hreg' v' hfree' hv' => ?_⟩
          rcases List.mem_cons.mp hreg' with rfl | hreg'
          · exact hown hv' ▸ hless
          · exact hle reg' hreg' v' hfree' hv'
        · refine .inr ⟨reg, v, hres, List.mem_cons_of_mem _ hmem, hfree, hv, hmax,
            fun reg' hreg' v' hfree' hv' => ?_⟩
          rcases List.mem_cons.mp hreg' with rfl | hreg'
          · exact .inl (hown hv' ▸ Nat.lt_of_le_of_lt hless hmax)
          · exact hfirst reg' hreg' v' hfree' hv'

/-! ### The register that is evicted -/

theorem getLsbD_bankRegs : ∀ (bank : Fin 2) (reg : EvictReg),
    (bankRegs bank).getLsbD reg = decide (reg.val / 32 = bank) := by
  decide

theorem mem_candidates {reg : EvictReg} : reg ∈ s.candidates bank exclusionMask ↔
    s.used.getLsbD reg = true ∧ reg.val / 32 = bank ∧ exclusionMask.getLsbD reg = false := by
  rw [candidates, List.mem_filter, BitVec.getLsbD_and, BitVec.getLsbD_and, BitVec.getLsbD_not,
    getLsbD_bankRegs]
  simp [and_assoc]

theorem evictable_iff {reg : EvictReg} :
    s.Evictable bank exclusionMask reg ↔ reg ∈ s.candidates bank exclusionMask ∧ s.isFixed reg = false := by
  rw [mem_candidates, Evictable]
  tauto

theorem pairwise_candidates : (s.candidates bank exclusionMask).Pairwise (· < ·) :=
  (List.pairwise_lt_finRange 64).filter _

/-- A register that could be evicted holds a value, and is. -/
theorem Evictable.evict {reg : EvictReg} (h : s.Evictable bank exclusionMask reg) :
    (∃ v, s.victim reg = some v) ∧ ∃ s', s.evictReg reg = some s' := by
  obtain ⟨hused, -, -, hfix⟩ := h
  obtain ⟨hvalid, va, hva, hrv, hreg⟩ := s.holds reg hused (by simpa [isFixed] using hfix)
  constructor
  · rw [victim]
    dsimp only
    rw [if_neg hvalid, hva]
    exact ⟨_, rfl⟩
  · rw [evictReg, if_neg (by simp [hfix, hvalid])]
    split
    · rename_i hnone
      rw [hva] at hnone
      cases hnone
    · rename_i va' hsome
      obtain rfl : va = va' := Option.some.inj (hva.symm.trans hsome)
      rw [dif_pos ⟨hrv, hreg⟩]
      exact ⟨_, rfl⟩

/-- What `select_reg_evict` returns: the first variable reference, or the first register of the highest
rank. -/
structure Selected (s : RegFileState) (bank : Fin 2) (exclusionMask : BitVec 64) (reg : EvictReg)
    (v : Victim) : Prop where
  evictable : s.Evictable bank exclusionMask reg
  victim : s.victim reg = some v
  first : ∀ reg' v', s.Evictable bank exclusionMask reg' → s.victim reg' = some v' →
    if v.variableRef then v'.variableRef = true → reg ≤ reg'
    else v'.variableRef = false ∧
      (v'.rank s.curBlockIdx < v.rank s.curBlockIdx ∨ v'.rank s.curBlockIdx = v.rank s.curBlockIdx ∧
        reg ≤ reg')

theorem selectRegEvict_selected (h : ∃ reg, s.Evictable bank exclusionMask reg) :
    ∃ reg s' v, s.selectRegEvict bank exclusionMask = some (reg, s') ∧
      Selected s bank exclusionMask reg v := by
  have hval : ∀ reg ∈ s.candidates bank exclusionMask, s.isFixed reg = false → ∃ v, s.victim reg = some v :=
    fun reg hreg hfree => (evictable_iff.mpr ⟨hreg, hfree⟩).evict.1
  have hdone {reg : EvictReg} {v : Victim} (hres : s.search (s.candidates bank exclusionMask) none 0 =
    some (some reg))
      (hsel : Selected s bank exclusionMask reg v) :
      ∃ reg s' v, s.selectRegEvict bank exclusionMask = some (reg, s') ∧
        Selected s bank exclusionMask reg v := by
    obtain ⟨s', hs'⟩ := hsel.evictable.evict.2
    refine ⟨reg, s', v, ?_, hsel⟩
    rw [selectRegEvict, hres, Option.join_some, Option.bind_some, hs', Option.map_some]
  by_cases href : ∃ reg v, s.Evictable bank exclusionMask reg ∧ s.victim reg = some v ∧ v.variableRef = true
  · obtain ⟨reg₀, v₀, hev₀, hv₀, href₀⟩ := href
    obtain ⟨hmem₀, hfree₀⟩ := evictable_iff.mp hev₀
    obtain ⟨reg, v, hres, hmem, hfree, hv, hvar, hfirst⟩ :=
      search_variableRef hval pairwise_candidates hmem₀ hfree₀ hv₀ href₀
    refine hdone hres ⟨evictable_iff.mpr ⟨hmem, hfree⟩, hv, fun reg' v' hev' hv' => ?_⟩
    rw [if_pos hvar]
    obtain ⟨hmem', hfree'⟩ := evictable_iff.mp hev'
    exact hfirst reg' hmem' v' hfree' hv'
  · have hno {reg : EvictReg} {v : Victim} (hev : s.Evictable bank exclusionMask reg)
      (hv : s.victim reg = some v) : v.variableRef = false :=
      Bool.eq_false_iff.mpr fun hvar => href ⟨reg, v, hev, hv, hvar⟩
    have hval' : ∀ reg ∈ s.candidates bank exclusionMask, s.isFixed reg = false → ∃ v,
      s.victim reg = some v ∧ v.variableRef = false := by
      intro reg hreg hfree
      obtain ⟨v, hv⟩ := hval reg hreg hfree
      exact ⟨v, hv, hno (evictable_iff.mpr ⟨hreg, hfree⟩) hv⟩
    rcases search_score hval' pairwise_candidates none 0 with ⟨-, hle⟩ | ⟨reg, v, hres, hmem, hfree, hv,
      -, hfirst⟩
    · obtain ⟨reg, hev⟩ := h
      obtain ⟨hmem, hfree⟩ := evictable_iff.mp hev
      obtain ⟨v, hv⟩ := hval reg hmem hfree
      exact absurd (v.score_pos s.curBlockIdx) (BitVec.not_lt.mpr (hle reg hmem v hfree hv))
    · have hev := evictable_iff.mpr ⟨hmem, hfree⟩
      refine hdone hres ⟨hev, hv, fun reg' v' hev' hv' => ?_⟩
      rw [hno hev hv, if_neg Bool.false_ne_true]
      obtain ⟨hmem', hfree'⟩ := evictable_iff.mp hev'
      refine ⟨hno hev' hv', ?_⟩
      rw [← Victim.score_lt_iff, ← Victim.score_eq_iff]
      exact hfirst reg' hmem' v' hfree' hv'

/-- Only one register is selected. -/
theorem Selected.unique {reg reg' : EvictReg} {v v' : Victim} (h : Selected s bank exclusionMask reg v)
    (h' : Selected s bank exclusionMask reg' v') : reg = reg' := by
  have hthis := h.first reg' v' h'.evictable h'.victim
  have hother := h'.first reg v h.evictable h.victim
  cases hvar : v.variableRef <;> cases hvar' : v'.variableRef <;>
    simp only [hvar, hvar', Bool.false_eq_true, if_false, if_true] at hthis hother
  · rcases hthis.2 with hlt | ⟨heq, hle⟩
    · rcases hother.2 with hgt | ⟨heq, -⟩
      · exact absurd hgt hlt.asymm
      · exact absurd heq hlt.ne'
    · rcases hother.2 with hgt | ⟨-, hge⟩
      · exact absurd heq hgt.ne'
      · exact le_antisymm hle hge
  · exact absurd hthis.1 Bool.noConfusion
  · exact absurd hother.1 Bool.noConfusion
  · exact le_antisymm (hthis trivial) (hother trivial)

theorem IsBest.variableRef_eq {reg reg' : EvictReg} {v v' : Victim}
    (h : s.IsBest bank exclusionMask reg v) (hvar : v.variableRef = false)
    (hev : s.Evictable bank exclusionMask reg') (hv : s.victim reg' = some v') : v'.variableRef = false := by
  have hle := Prod.Lex.monotone_fst _ _ (h.2.2 reg' v' hev hv)
  change v'.variableRef ≤ v.variableRef at hle
  rw [hvar] at hle
  exact le_antisymm hle (Bool.false_le _)

/-- **The evicted register is one of the highest priority exactly if** such a register is first in the
other order as well. -/
theorem selectRegEvict_correct_iff (s : RegFileState) (bank : Fin 2) (exclusionMask : BitVec 64) :
    s.Correct bank exclusionMask ↔ s.RanksAlike bank exclusionMask := by
  constructor
  · rintro ⟨reg, s', v, hsel, hbest⟩
    obtain ⟨reg₀, s₀, v₀, hsel₀, hselected⟩ := selectRegEvict_selected ⟨reg, hbest.1⟩
    rw [hsel] at hsel₀
    cases hsel₀
    obtain rfl : v = v₀ := Option.some.inj (hbest.2.1.symm.trans hselected.victim)
    refine ⟨reg, v, hbest, fun reg' v' hev' hv' => ?_⟩
    have hfirst := hselected.first reg' v' hev' hv'
    split at hfirst
    · rwa [if_pos ‹_›]
    · rw [if_neg ‹_›]
      exact hfirst.2
  · rintro ⟨reg, v, hbest, halike⟩
    have hselected : Selected s bank exclusionMask reg v := by
      refine ⟨hbest.1, hbest.2.1, fun reg' v' hev' hv' => ?_⟩
      have halike := halike reg' v' hev' hv'
      split at halike
      case isTrue hvar => rwa [if_pos hvar]
      case isFalse hvar =>
        rw [if_neg hvar]
        exact ⟨hbest.variableRef_eq (Bool.eq_false_iff.mpr hvar) hev' hv', halike⟩
    obtain ⟨reg₀, s₀, v₀, hsel₀, hselected₀⟩ := selectRegEvict_selected ⟨reg, hbest.1⟩
    obtain rfl := hselected.unique hselected₀
    exact ⟨reg, s₀, v, hsel₀, hbest⟩

/-- Two values, of which the first is used five blocks away and the second in the next one. -/
def nearAndFar : RegFileState where
  used := 3
  lockCounts _ := 0
  assignments reg := { localIdx := BitVec.ofNat 32 reg, part := 0 }
  valAssignment idx := some
    { referencesLeft := 1, pendingFree := false, variableRef := false,
      parts := fun _ => 0xa00 ||| idx.setWidth 16 }
  last idx := if idx = 0 then 5 else 1
  curBlockIdx := 0
  holds reg _ _ := by
    refine ⟨?_, _, rfl, ?_, ?_⟩ <;> revert reg <;> decide

/-- The second is evicted. -/
theorem selectRegEvict_nearest : ¬ nearAndFar.Correct 0 0 := by
  rintro ⟨reg, s', v, hsel, -, hv, hbest⟩
  have hreg : (nearAndFar.selectRegEvict 0 0).map Prod.fst = some 1 := by decide +kernel
  rw [hsel, Option.map_some, Option.some_inj] at hreg
  dsimp only at hreg
  subst hreg
  cases hv
  have hle := hbest 0 ⟨false, false, 5, 1⟩ ⟨rfl, rfl, rfl, rfl⟩ rfl
  revert hle
  decide

end RegFileState

end Tpde.Compiler
