import Tpde.Library.BitFields
import Tpde.Library.Runs
import Tpde.Util.SmallBitSet

/-!
# Bit sets as sets

Runs over any number of `SmallBitSet`s, beside the sets of numbers that they stand for. Four
things go wrong: `resize` clears the last word when the old size is a multiple of 64, and
computes the number of words in 32 bits; the move assignment moves the words of the target into
themselves, and `first_set` adds the number of a word instead of that of its first bit, and sees bits
behind the size that a smaller size left there. Otherwise all answers are those of the sets
(`answers_iff`).

Bit sets are moved only: to copy one is to copy its `SmallVector`, which cannot be copied. A bit set that
was moved from has no words but still a size, and stands for no set until it is cleared or assigned to.
-/

namespace Tpde.Util

open BitFields Runs

namespace SmallBitSet

/-! ### The model -/

/-- `resize` for any 32-bit size: the number of words is computed in 32 bits. -/
def resize32 (s : SmallBitSet) (bitSize : BitVec 32) : SmallBitSet :=
  let byteSize := (bitSize.toNat + 63) % 2 ^ 32 / 64
  let data :=
    if bitSize.toNat > s.bitSize ∧ s.bitSize ≠ 0 then
      s.data.modify (s.data.length - 1) (· &&& ((1 : BitVec 64) <<< (s.bitSize % 64) - 1))
    else s.data
  { data := data.take byteSize ++ List.replicate (byteSize - data.length) 0, bitSize := bitSize.toNat }

/-- Up to the last sizes this is `resize`. -/
theorem resize32_eq (s : SmallBitSet) {bitSize : BitVec 32} (h : bitSize.toNat + 63 < 2 ^ 32) :
    s.resize32 bitSize = s.resize bitSize.toNat := by
  rw [resize32, resize, Nat.mod_eq_of_lt h]

/-- The assertion of `operator[]` of the words. -/
def InRange (s : SmallBitSet) (idx : ℕ) : Prop := idx / 64 < s.data.length

instance (s : SmallBitSet) (idx : ℕ) : Decidable (s.InRange idx) := inferInstanceAs (Decidable (_ < _))

/-- `s'`, if the access to a bit of `s` passes the assertion. -/
def checked (s : SmallBitSet) (idx : ℕ) (s' : SmallBitSet) : Option SmallBitSet :=
  if s.InRange idx then some s' else none

/-- `push_back`. -/
def pushBack (s : SmallBitSet) (val : Bool) : Option SmallBitSet :=
  let bitSize := (s.bitSize + 1) % 2 ^ 32
  if s.bitSize / 64 ≠ (s.bitSize + 2 ^ 32 - 1) % 2 ^ 32 / 64 then
    let s := { s with data := s.data ++ [0] }
    (if val then s.checked s.bitSize (s.markSet s.bitSize) else some s).map ({ · with bitSize })
  else
    (s.checked s.bitSize (if val then s.markSet s.bitSize else s.markUnset s.bitSize)).map ({ · with
      bitSize })

/-- `zero`. -/
def zero (s : SmallBitSet) : SmallBitSet := { s with data := s.data.map fun _ => 0 }

/-- `clear`. -/
def clear (_ : SmallBitSet) : SmallBitSet := { data := [], bitSize := 0 }

/-- A call that changes one bit set. -/
inductive Call where
  | resize (bitSize : BitVec 32)
  | pushBack (val : Bool)
  | markSet (idx : BitVec 32)
  | markUnset (idx : BitVec 32)
  | zero

def Call.exec (s : SmallBitSet) : Call → Option SmallBitSet
  | resize bitSize => some (s.resize32 bitSize)
  | pushBack val => s.pushBack val
  | markSet idx => s.checked idx.toNat (s.markSet idx.toNat)
  | markUnset idx => s.checked idx.toNat (s.markUnset idx.toNat)
  | zero => some s.zero

/-! ### Sets of numbers -/

/-- A set of numbers below a size. -/
structure Bounded where
  size : ℕ := 0
  members : Finset ℕ := ∅
  lt : ∀ k ∈ members, k < size := by simp

namespace Bounded

/-- The members below a size. -/
def resize (a : Bounded) (size : ℕ) : Bounded where
  size
  members := a.members.filter (· < size)
  lt _ hk := (Finset.mem_filter.mp hk).2

/-- The next number is put in the set, or left out. -/
def pushBack (a : Bounded) (val : Bool) : Bounded where
  size := a.size + 1
  members := if val then insert a.size a.members else a.members
  lt k hk := by
    have hlt := a.lt
    cases val with
    | false => exact Nat.lt_succ_of_lt (hlt k hk)
    | true =>
      rcases Finset.mem_insert.mp hk with rfl | hk
      · exact Nat.lt_succ_self _
      · exact Nat.lt_succ_of_lt (hlt k hk)

/-- A number is put in the set; those from the size on are none of its. -/
def markSet (a : Bounded) (idx : ℕ) : Bounded where
  size := a.size
  members := if idx < a.size then insert idx a.members else a.members
  lt k hk := by
    have hlt := a.lt
    split at hk
    · rcases Finset.mem_insert.mp hk with rfl | hk
      · assumption
      · exact hlt k hk
    · exact hlt k hk

def markUnset (a : Bounded) (idx : ℕ) : Bounded where
  size := a.size
  members := a.members.erase idx
  lt k hk := a.lt k (Finset.mem_of_mem_erase hk)

def zero (a : Bounded) : Bounded := { size := a.size }

def exec (a : Bounded) : Call → Bounded
  | .resize bitSize => a.resize bitSize.toNat
  | .pushBack val => a.pushBack val
  | .markSet idx => a.markSet idx.toNat
  | .markUnset idx => a.markUnset idx.toNat
  | .zero => a.zero

end Bounded

/-! ### Runs -/

/-- Bit sets, and the sets of numbers that they stand for; there is none for one that was moved from. -/
structure World where
  sets : ℕ → SmallBitSet := fun _ => {}
  nums : ℕ → Option Bounded := fun _ => some {}

/-- The operations. A bit set that was moved from is only cleared or made anew. -/
inductive Op where
  | call (i : ℕ) (c : Call)
  | clear (i : ℕ)
  | moveConstruct (i j : ℕ)
  | moveAssign (i j : ℕ)
  | isSet (i : ℕ) (idx : BitVec 32)
  | firstSet (i : ℕ)

namespace World

variable (w : World)

def update (i : ℕ) (s : SmallBitSet) (a : Option Bounded) : World where
  sets := Function.update w.sets i s
  nums := Function.update w.nums i a

def step : Op → Option World
  | .call i c => (w.nums i).bind fun a => (c.exec (w.sets i)).map fun s => w.update i s (some (a.exec c))
  | .clear i => some (w.update i (w.sets i).clear (some {}))
  | .moveConstruct i j =>
    if i = j then none
    else (w.nums j).map fun a =>
      (w.update i (w.sets j) (some a)).update j { data := [], bitSize := (w.sets j).bitSize } none
  | .moveAssign i j =>
    (w.nums j).map fun a =>
      if i = j then w
      else (w.update i { data := [], bitSize := (w.sets j).bitSize } (some a)).update j (w.sets j) none
  | .isSet i idx => if (w.nums i).isSome ∧ (w.sets i).InRange idx.toNat then some w else none
  | .firstSet i => if (w.nums i).isSome then some w else none

end World

/-- A bit set has its size, and a bit for each number below it that says if it is in the set. -/
structure Shows (s : SmallBitSet) (a : Bounded) : Prop where
  size : s.bitSize = a.size
  isSet : ∀ k < a.size, s.InRange k ∧ s.isSet k = decide (k ∈ a.members)

/-- What `first_set` should return. -/
def Bounded.IsFirst (a : Bounded) : Option ℕ → Prop
  | none => a.members = ∅
  | some m => IsLeast (a.members : Set ℕ) m

/-- After an operation all bit sets show their sets, and what it answered is right. -/
structure Answers (t : Step World Op) : Prop where
  shows : ∀ i a, t.after.nums i = some a → Shows (t.after.sets i) a
  isSet : ∀ i idx a, t.op = .isSet i idx → t.before.nums i = some a →
    (t.before.sets i).isSet idx.toNat = decide (idx.toNat ∈ a.members)
  firstSet : ∀ i a, t.op = .firstSet i → t.before.nums i = some a → a.IsFirst (t.before.sets i).firstSet

/-- The last word of a bit set. -/
def lastWord (s : SmallBitSet) : BitVec 64 := s.data.getD (s.data.length - 1) 0

/-- The condition on a call. -/
def Call.Ok (s : SmallBitSet) : Call → Prop
  | resize bitSize =>
    bitSize.toNat + 63 < 2 ^ 32 ∧
      (s.bitSize < bitSize.toNat → s.bitSize ≠ 0 → s.bitSize % 64 = 0 → s.lastWord = 0)
  | pushBack _ => s.bitSize + 1 < 2 ^ 32
  | _ => True

/-- A bit behind the size, which a larger size left in the words or `mark_set` put there. -/
def Stale (s : SmallBitSet) (k : ℕ) : Prop := s.bitSize ≤ k ∧ (s.data.getD (k / 64) 0).getLsbD (k % 64) = true

/-- The lowest bit of the words. -/
def Lowest (s : SmallBitSet) (m : ℕ) : Prop :=
  IsLeast { k | (s.data.getD (k / 64) 0).getLsbD (k % 64) = true } m

/-- The condition on an operation. -/
def Meets (t : Step World Op) : Prop :=
  match t.op with
  | .call i c => c.Ok (t.before.sets i)
  | .moveAssign i j => i = j ∨ (t.before.sets j).bitSize = 0
  | .isSet i idx => ¬ (t.before.sets i).Stale idx.toNat
  | .firstSet i => ∀ m, (t.before.sets i).Lowest m → m < 64 ∧ ¬ (t.before.sets i).Stale m
  | _ => True

/-! ### Bits -/

section
variable {s s' : SmallBitSet} {a : Bounded} {k n : ℕ}

theorem bit_zero (i : ℕ) : (0 : BitVec 64).getLsbD i = false := BitVec.getLsbD_zero

theorem checked_eq_some {t : SmallBitSet} : s.checked k s' = some t ↔ s.InRange k ∧ s' = t := by
  rw [checked, Option.ite_none_right_eq_some, Option.some_inj]

theorem isSet_of_not_inRange (h : ¬ s.InRange k) : s.isSet k = false := by
  rw [isSet, List.getD_eq_getElem?_getD, List.getElem?_eq_none (not_lt.mp h), Option.getD_none, bit_zero]

/-- The bit of a number in some words. -/
theorem isSet_mk (data : List (BitVec 64)) (n k : ℕ) :
    isSet ⟨data, n⟩ k = (data.getD (k / 64) 0).getLsbD (k % 64) := rfl

theorem isSet_take (data : List (BitVec 64)) (byteSize n k : ℕ) :
    isSet ⟨data.take byteSize ++ List.replicate (byteSize - data.length) 0, n⟩ k =
      (decide (k / 64 < byteSize) && isSet ⟨data, n⟩ k) := by
  rw [isSet_mk, isSet_mk, List.getD_eq_getElem?_getD, List.getD_eq_getElem?_getD, List.getElem?_append,
    List.length_take,
    List.getElem?_take, List.getElem?_replicate]
  by_cases hk : k / 64 < byteSize
  · by_cases hlen : k / 64 < data.length
    · rw [if_pos (by omega), if_pos hk, decide_eq_true hk, Bool.true_and]
    · rw [if_neg (by omega), if_pos (by omega), List.getElem?_eq_none (not_lt.mp hlen),
        Option.getD_some, Option.getD_none,
        bit_zero, Bool.and_false]
  · rw [if_neg (by omega), if_neg (by omega), decide_eq_false hk, Bool.false_and, Option.getD_none, bit_zero]

theorem getLsbD_mask {r : ℕ} (hr : r < 64) (k : ℕ) :
    ((1 : BitVec 64) <<< r - 1).getLsbD (k % 64) = decide (k % 64 < r) := by
  rw [one_shiftLeft_sub_one hr, getLsbD_lowMask r (Nat.mod_lt _ (by decide))]

/-- The bits after a `resize`: those from the old size on are cleared where it does more than cut off
words, and with them the last word if it was full. -/
theorem isSet_resize32 (s : SmallBitSet) (bitSize : BitVec 32) (k : ℕ) : (s.resize32 bitSize).isSet k =
    (decide (k / 64 < (bitSize.toNat + 63) % 2 ^ 32 / 64) && s.isSet k &&
      decide (s.bitSize < bitSize.toNat → s.bitSize ≠ 0 → k / 64 = s.data.length - 1 →
        k % 64 < s.bitSize % 64)) := by
  rw [resize32, isSet_take]
  split
  case isTrue h =>
    by_cases hk : k / 64 < s.data.length
    · have hmod :=
        getLsbD_modify s.data (· &&& ((1 : BitVec 64) <<< (s.bitSize % 64) - 1))
          (64 * (s.data.length - 1)) k (by omega)
      rw [show 64 * (s.data.length - 1) / 64 = s.data.length - 1 by omega] at hmod
      rw [isSet_mk, hmod]
      split
      case isTrue hlast =>
        rw [BitVec.getLsbD_and, getLsbD_mask (Nat.mod_lt _ (by decide)), ← Bool.and_assoc]
        congr 1
        exact decide_eq_decide.mpr ⟨fun hlt _ _ _ => hlt, fun himp => himp h.1 h.2 hlast⟩
      case isFalse hlast =>
        rw [decide_eq_true (fun _ _ heq => absurd heq hlast), Bool.and_true]
        rfl
    · have hzero : s.isSet k = false := isSet_of_not_inRange hk
      have hzero' :
        isSet ⟨s.data.modify (s.data.length - 1) (· &&& ((1 : BitVec 64) <<< (s.bitSize % 64) - 1)),
        bitSize.toNat⟩ k = false :=
        isSet_of_not_inRange (by rwa [InRange, List.length_modify])
      rw [hzero, hzero', Bool.and_false, Bool.false_and]
  case isFalse h =>
    rw [decide_eq_true (fun hlt hne => absurd ⟨hlt, hne⟩ h), Bool.and_true]
    rfl

theorem length_resize32 (s : SmallBitSet) (bitSize : BitVec 32) :
    (s.resize32 bitSize).data.length = (bitSize.toNat + 63) % 2 ^ 32 / 64 := by
  rw [resize32]
  dsimp only
  rw [List.length_append, List.length_take, List.length_replicate]
  split
  · rw [List.length_modify]
    omega
  · omega

/-! ### One bit set -/

/-- A bit set is that of its numbers, with as many words as its size needs. -/
structure Rep (s : SmallBitSet) (a : Bounded) : Prop where
  length : s.data.length = (s.bitSize + 63) / 64
  size : s.bitSize = a.size
  lt : s.bitSize < 2 ^ 32
  isSet : ∀ k < a.size, s.isSet k = decide (k ∈ a.members)

theorem Rep.inRange (h : Rep s a) (hk : k < s.bitSize) : s.InRange k := by
  have := h.length
  unfold InRange
  omega

theorem Rep.shows (h : Rep s a) : Shows s a where
  size := h.size
  isSet k hk := ⟨h.inRange (h.size ▸ hk), h.isSet k hk⟩

theorem rep_empty : Rep {} {} := ⟨rfl, rfl, by decide, nofun⟩

/-- `resize` is right exactly if the number of words is, and no full word is cleared. -/
theorem Rep.resize (h : Rep s a) (bitSize : BitVec 32) :
    (Call.Ok s (.resize bitSize) → Rep (s.resize32 bitSize) (a.resize bitSize.toNat)) ∧
      (Shows (s.resize32 bitSize) (a.resize bitSize.toNat) → Call.Ok s (.resize bitSize)) := by
  have hlen := h.length
  have hsize := h.size
  constructor
  · rintro ⟨hwrap, hlast⟩
    have hwords : (bitSize.toNat + 63) % 2 ^ 32 / 64 = (bitSize.toNat + 63) / 64 := by
      rw [Nat.mod_eq_of_lt hwrap]
    refine ⟨?_, rfl, bitSize.isLt, fun k hk => ?_⟩
    · rw [length_resize32, hwords]
      rfl
    · change k < bitSize.toNat at hk
      rw [isSet_resize32, hwords, decide_eq_true (show k / 64 < (bitSize.toNat + 63) / 64 by omega),
        Bool.true_and]
      simp only [Bounded.resize, Finset.mem_filter, hk, and_true]
      by_cases hold : k < s.bitSize
      · rw [h.isSet k (hsize ▸ hold)]
        by_cases hkeep : s.bitSize < bitSize.toNat → s.bitSize ≠ 0 → k / 64 = s.data.length - 1 →
          k % 64 < s.bitSize % 64
        · rw [decide_eq_true hkeep, Bool.and_true]
        · -- The last word was full, and is zero.
          simp only [Classical.not_imp] at hkeep
          obtain ⟨hlt, hne, hword, hge⟩ := hkeep
          have hzero := hlast hlt hne (by omega)
          have hbit : s.isSet k = false := by
            rw [SmallBitSet.isSet, hword]
            exact (congrArg (fun v => BitVec.getLsbD v (k % 64)) hzero).trans (bit_zero _)
          rw [h.isSet k (hsize ▸ hold)] at hbit
          rw [hbit, Bool.false_and]
      · have hnot : k ∉ a.members := fun hmem => hold (hsize ▸ a.lt k hmem)
        rw [decide_eq_false hnot]
        by_cases hr : s.InRange k
        · -- The number is in the last word, behind the old size.
          unfold InRange at hr
          have hkeep :
            ¬ (s.bitSize < bitSize.toNat → s.bitSize ≠ 0 → k / 64 = s.data.length - 1 →
            k % 64 < s.bitSize % 64) :=
            fun himp => by
              have := himp (by omega) (by omega) (by omega)
              omega
          rw [decide_eq_false hkeep, Bool.and_false]
        · rw [isSet_of_not_inRange hr, Bool.false_and]
  · intro hshows
    have hwrap : bitSize.toNat + 63 < 2 ^ 32 := by
      by_contra hge
      have hpos : 0 < bitSize.toNat := by omega
      have hlt := bitSize.isLt
      have hin := (hshows.isSet 0 hpos).1
      unfold InRange at hin
      rw [length_resize32] at hin
      omega
    refine ⟨hwrap, fun hlt hne hfull => ?_⟩
    apply BitVec.eq_of_getLsbD_eq
    intro i hi
    rw [bit_zero]
    by_contra hbit
    have hk : 64 * (s.data.length - 1) + i < a.size := by omega
    have hset : s.isSet (64 * (s.data.length - 1) + i) = true := by
      rw [SmallBitSet.isSet, show (64 * (s.data.length - 1) + i) / 64 = s.data.length - 1 by omega,
        show (64 * (s.data.length - 1) + i) % 64 = i by omega]
      exact Bool.not_eq_false _ ▸ hbit
    have hmem : 64 * (s.data.length - 1) + i ∈ a.members := of_decide_eq_true ((h.isSet _ hk).symm.trans hset)
    have hnew := (hshows.isSet (64 * (s.data.length - 1) + i) (show _ < bitSize.toNat by omega)).2
    have hmem : 64 * (s.data.length - 1) + i ∈ (a.resize bitSize.toNat).members :=
      Finset.mem_filter.mpr ⟨hmem, by omega⟩
    rw [isSet_resize32, decide_eq_true hmem,
      Bool.and_eq_true, decide_eq_true_eq] at hnew
    have := hnew.2 hlt hne (by omega)
    omega

theorem Rep.markSet (h : Rep s a) (hk : s.InRange k) : Rep (s.markSet k) (a.markSet k) := by
  refine ⟨by rw [length_markSet]; exact h.length, h.size, h.lt, fun j hj => ?_⟩
  change j < a.size at hj
  rw [isSet_markSet s (by unfold InRange at hk; omega), h.isSet j hj, Bool.eq_iff_iff, Bool.or_eq_true,
    decide_eq_true_iff,
    decide_eq_true_iff, decide_eq_true_iff, Bounded.markSet]
  dsimp only
  split
  · exact Finset.mem_insert.symm
  · exact or_iff_right (by omega)

theorem Rep.markUnset (h : Rep s a) (hk : s.InRange k) : Rep (s.markUnset k) (a.markUnset k) := by
  refine ⟨by rw [length_markUnset]; exact h.length, h.size, h.lt, fun j hj => ?_⟩
  change j < a.size at hj
  rw [isSet_markUnset s (by unfold InRange at hk; omega), h.isSet j hj, Bool.eq_iff_iff,
    Bool.and_eq_true, decide_eq_true_iff,
    decide_eq_true_iff, decide_eq_true_iff]
  exact and_comm.trans Finset.mem_erase.symm

theorem Rep.zero (h : Rep s a) : Rep s.zero a.zero := by
  refine ⟨by rw [SmallBitSet.zero, List.length_map]; exact h.length, h.size, h.lt, fun k hk => ?_⟩
  have hbit : s.zero.isSet k = false := by
    rw [SmallBitSet.isSet, SmallBitSet.zero, List.getD_eq_getElem?_getD, List.getElem?_map]
    cases s.data[k / 64]? with
    | none => exact bit_zero _
    | some v => exact bit_zero _
  rw [hbit]
  exact (decide_eq_false (Finset.notMem_empty k)).symm

theorem isSet_append_zero (s : SmallBitSet) (k : ℕ) :
    isSet { s with data := s.data ++ [0] } k = s.isSet k := by
  rw [isSet, isSet, List.getD_eq_getElem?_getD, List.getD_eq_getElem?_getD, List.getElem?_append]
  split
  case isTrue => rfl
  case isFalse hge =>
    rw [List.getElem?_eq_none (not_lt.mp hge), Option.getD_none]
    rcases Nat.eq_zero_or_pos (k / 64 - s.data.length) with h0 | hpos
    · rw [h0]
      rfl
    · rw [List.getElem?_eq_none (by rw [List.length_singleton]; omega), Option.getD_none]

/-- The next number is put in: the bit at the end is set or not, the others stay. -/
theorem Rep.pushed (h : Rep s a) {val : Bool} (hlt : s.bitSize + 1 < 2 ^ 32)
    (hlen : s'.data.length = (s.bitSize + 1 + 63) / 64)
    (hsize : s'.bitSize = s.bitSize + 1) (hend : s'.isSet s.bitSize = val) (hrest : ∀ k < s.bitSize,
      s'.isSet k = s.isSet k) :
    Rep s' (a.pushBack val) := by
  have hold := h.size
  refine ⟨by rw [hlen, hsize], by rw [hsize, hold]; rfl, by omega, fun k hk => ?_⟩
  change k < a.size + 1 at hk
  have hmem : k ∈ (a.pushBack val).members ↔ (k = a.size ∧ val = true) ∨ k ∈ a.members := by
    rw [Bounded.pushBack]
    cases val <;> simp
  rw [Bool.eq_iff_iff, decide_eq_true_iff, hmem]
  rcases Nat.lt_succ_iff_lt_or_eq.mp hk with hk | rfl
  · rw [hrest k (hold ▸ hk), h.isSet k hk, decide_eq_true_iff]
    exact ⟨.inr, fun hor => hor.resolve_left fun ⟨heq, _⟩ => absurd heq hk.ne⟩
  · have hnot : a.size ∉ a.members := fun hmem => (a.lt _ hmem).false
    rw [hold] at hend
    rw [hend]
    exact ⟨fun hval => .inl ⟨rfl, hval⟩, fun hor => (hor.resolve_right hnot).2⟩

/-- `push_back` is right as long as the new size is one of 32 bits. -/
theorem Rep.pushBack (h : Rep s a) {val : Bool} (hpush : s.pushBack val = some s') :
    (Call.Ok s (.pushBack val) → Rep s' (a.pushBack val)) ∧
      (Shows s' (a.pushBack val) → Call.Ok s (.pushBack val)) := by
  have hlen := h.length
  have hlt := h.lt
  unfold SmallBitSet.pushBack at hpush
  constructor
  · intro hok
    have hok : s.bitSize + 1 < 2 ^ 32 := hok
    rw [Nat.mod_eq_of_lt hok] at hpush
    split at hpush
    case isTrue hfull =>
      -- All words are full, and one is appended.
      have hend : s.isSet s.bitSize = false := isSet_of_not_inRange (by unfold InRange; omega)
      have hlt64 : s.bitSize < 64 * (s.data ++ [0]).length := by
        rw [List.length_append, List.length_singleton]
        omega
      have hnew : (s.data ++ [0]).length = (s.bitSize + 1 + 63) / 64 := by
        rw [List.length_append, List.length_singleton]
        omega
      obtain ⟨u, hu, rfl⟩ := Option.map_eq_some_iff.mp hpush
      cases val with
      | false =>
        cases hu
        exact h.pushed hok hnew rfl ((isSet_append_zero s _).trans hend) fun k _ => isSet_append_zero s k
      | true =>
        obtain ⟨-, rfl⟩ := checked_eq_some.mp hu
        refine h.pushed hok ((length_markSet _ _).trans hnew) rfl ?_ fun k hk => ?_
        · exact (isSet_markSet _ hlt64 _).trans (by rw [decide_eq_true rfl, Bool.true_or])
        · exact (isSet_markSet _ hlt64
            k).trans (by rw [decide_eq_false hk.ne, Bool.false_or, isSet_append_zero])
    case isFalse hfull =>
      have hlt64 : s.bitSize < 64 * s.data.length := by omega
      obtain ⟨u, hu, rfl⟩ := Option.map_eq_some_iff.mp hpush
      obtain ⟨-, rfl⟩ := checked_eq_some.mp hu
      have hnew : s.data.length = (s.bitSize + 1 + 63) / 64 := by omega
      cases val with
      | false =>
        refine h.pushed hok ((length_markUnset _ _).trans hnew) rfl ?_ fun k hk => ?_
        · exact (isSet_markUnset s hlt64 _).trans (by rw [decide_eq_false (not_not.mpr rfl), Bool.and_false])
        · exact (isSet_markUnset s hlt64 k).trans (by rw [decide_eq_true hk.ne, Bool.and_true])
      | true =>
        refine h.pushed hok ((length_markSet _ _).trans hnew) rfl ?_ fun k hk => ?_
        · exact (isSet_markSet s hlt64 _).trans (by rw [decide_eq_true rfl, Bool.true_or])
        · exact (isSet_markSet s hlt64 k).trans (by rw [decide_eq_false hk.ne, Bool.false_or])
  · intro hshows
    have hsize : s'.bitSize = (s.bitSize + 1) % 2 ^ 32 := by
      split at hpush <;> obtain ⟨u, -, rfl⟩ := Option.map_eq_some_iff.mp hpush <;> rfl
    have hnew : s'.bitSize = a.size + 1 := hshows.size
    have hold := h.size
    show s.bitSize + 1 < 2 ^ 32
    omega

/-- **A call on one bit set** is right exactly if it meets its condition. -/
theorem Rep.exec (h : Rep s a) {c : Call} (hexec : c.exec s = some s') :
    (c.Ok s → Rep s' (a.exec c)) ∧ (Shows s' (a.exec c) → c.Ok s) := by
  cases c with
  | resize bitSize =>
    cases hexec
    exact h.resize bitSize
  | pushBack val => exact h.pushBack hexec
  | markSet idx =>
    obtain ⟨hin, rfl⟩ := checked_eq_some.mp hexec
    exact ⟨fun _ => h.markSet hin, fun _ => trivial⟩
  | markUnset idx =>
    obtain ⟨hin, rfl⟩ := checked_eq_some.mp hexec
    exact ⟨fun _ => h.markUnset hin, fun _ => trivial⟩
  | zero =>
    cases hexec
    exact ⟨fun _ => h.zero, fun _ => trivial⟩

/-- What `first_set` returns is right exactly if the lowest bit is one of the first word, and not behind
the size. -/
theorem Rep.isFirst_iff (h : Rep s a) :
    a.IsFirst s.firstSet ↔ ∀ m, s.Lowest m → m < 64 ∧ ¬ s.Stale m := by
  have hfirst {m : ℕ} (hm : s.Lowest m) : s.firstSet = some (m / 64 + m % 64) :=
    firstSet_eq s hm.1 fun j hj => Bool.not_eq_true _ ▸ fun hset => absurd (hm.2 hset) (not_le.mpr hj)
  constructor
  · intro hright m hm
    rw [hfirst hm] at hright
    have hmem : m / 64 + m % 64 ∈ a.members := hright.1
    have hset : s.isSet (m / 64 + m % 64) = true := by
      rw [h.isSet _ (a.lt _ hmem)]
      exact decide_eq_true hmem
    have hle := hm.2 hset
    have hsize := a.lt _ hmem
    have := h.size
    exact ⟨by omega, fun hstale => absurd hstale.1 (by omega)⟩
  · intro hok
    by_cases hex : ∃ k, s.isSet k = true
    · obtain ⟨k, hk⟩ := hex
      obtain ⟨m, -, hm, hlow⟩ := exists_lowest s hk
      have hleast : s.Lowest m :=
        ⟨hm, fun j hj => not_lt.mp fun hlt => Bool.false_ne_true ((hlow j hlt).symm.trans hj)⟩
      obtain ⟨h64, hstale⟩ := hok m hleast
      have hsize : m < s.bitSize := not_le.mp fun hge => hstale ⟨hge, hm⟩
      rw [hfirst hleast, show m / 64 + m % 64 = m by omega]
      have hmem : m ∈ a.members := of_decide_eq_true ((h.isSet m (h.size ▸ hsize)).symm.trans hm)
      refine ⟨hmem, fun j hj => hleast.2 ?_⟩
      exact (h.isSet j (a.lt j hj)).trans (decide_eq_true hj)
    · have hnone : s.firstSet = none := by
        rw [firstSet, Option.map_eq_none_iff, List.findIdx?_eq_none_iff]
        intro v hv
        by_contra hne
        have hne : v ≠ 0 := by simpa using hne
        obtain ⟨i, hi, rfl⟩ := List.getElem_of_mem hv
        refine hex ⟨64 * i + s.data[i].ctz.toNat, ?_⟩
        have hctz : s.data[i].ctz.toNat < 64 := BitVec.ctz_lt_iff_ne_zero.mpr hne
        rw [SmallBitSet.isSet, show (64 * i + s.data[i].ctz.toNat) / 64 = i by omega,
          show (64 * i + s.data[i].ctz.toNat) % 64 = s.data[i].ctz.toNat by omega, List.getD_eq_getElem?_getD,
          List.getElem?_eq_getElem hi, Option.getD_some]
        exact BitVec.getLsbD_true_ctz_of_ne_zero hne
      rw [hnone]
      refine Finset.eq_empty_of_forall_notMem fun k hk => hex ⟨k, ?_⟩
      exact (h.isSet k (a.lt k hk)).trans (decide_eq_true hk)

/-- The words stay where they are on a move assignment, so that the new size must be zero. -/
theorem shows_nil_iff (h : Rep s a) : Shows { data := [], bitSize := s.bitSize } a ↔ s.bitSize = 0 := by
  constructor
  · intro hshows
    by_contra hne
    have hpos : 0 < a.size := h.size ▸ Nat.pos_of_ne_zero hne
    exact absurd (hshows.isSet 0 hpos).1 (Nat.not_lt_zero _)
  · intro hzero
    refine ⟨h.size, fun k hk => ?_⟩
    rw [← h.size, hzero] at hk
    exact absurd hk (Nat.not_lt_zero k)

/-- A query is right unless it finds a bit behind the size. -/
theorem Rep.isSet_iff (h : Rep s a) : s.isSet k = decide (k ∈ a.members) ↔ ¬ s.Stale k := by
  rcases lt_or_ge k s.bitSize with hlt | hge
  · exact iff_of_true (h.isSet k (h.size ▸ hlt)) fun hstale => hstale.1.not_gt hlt
  · have hnot : k ∉ a.members := fun hmem => (a.lt k hmem).not_ge (h.size ▸ hge)
    rw [decide_eq_false hnot, ← Bool.not_eq_true]
    exact not_congr (and_iff_right hge).symm

end

/-! ### All bit sets -/

/-- Each bit set that was not moved from is that of its numbers. -/
def World.Inv (w : World) : Prop := ∀ i a, w.nums i = some a → Rep (w.sets i) a

namespace World

variable {w w' : World} {op : Op}

section
variable {i k : ℕ} {s : SmallBitSet} {o : Option Bounded}

@[simp] theorem sets_update_self : (w.update i s o).sets i = s := Function.update_self ..

@[simp] theorem nums_update_self : (w.update i s o).nums i = o := Function.update_self ..

theorem sets_update_of_ne (h : k ≠ i) : (w.update i s o).sets k = w.sets k := Function.update_of_ne h ..

theorem nums_update_of_ne (h : k ≠ i) : (w.update i s o).nums k = w.nums k := Function.update_of_ne h ..

end

theorem inv_init : Inv {} := fun _ _ h => by
  cases h
  exact rep_empty

theorem Inv.update (hinv : w.Inv) {i : ℕ} {s : SmallBitSet} {o : Option Bounded}
    (hrep : ∀ a, o = some a → Rep s a) :
    (w.update i s o).Inv := by
  intro k a hk
  rcases eq_or_ne k i with rfl | hne
  · rw [nums_update_self] at hk
    rw [sets_update_self]
    exact hrep a hk
  · rw [nums_update_of_ne hne] at hk
    rw [sets_update_of_ne hne]
    exact hinv k a hk

/-- **What one operation keeps**, if it meets its condition. -/
theorem Inv.step (hinv : w.Inv) (hstep : w.step op = some w') (hok : Meets ⟨w, op, w'⟩) : w'.Inv := by
  cases op with
  | call i c =>
    obtain ⟨a, ha, hmap⟩ := Option.bind_eq_some_iff.mp hstep
    obtain ⟨s, hs, rfl⟩ := Option.map_eq_some_iff.mp hmap
    refine hinv.update fun b hb => ?_
    cases hb
    exact ((hinv i a ha).exec hs).1 hok
  | clear i =>
    cases hstep
    refine hinv.update fun b hb => ?_
    cases hb
    exact rep_empty
  | moveConstruct i j =>
    simp only [World.step, Option.ite_none_left_eq_some, Option.map_eq_some_iff] at hstep
    obtain ⟨-, a, ha, rfl⟩ := hstep
    refine (hinv.update fun b hb => ?_).update nofun
    cases hb
    exact hinv j a ha
  | moveAssign i j =>
    obtain ⟨a, ha, rfl⟩ := Option.map_eq_some_iff.mp hstep
    split
    case isTrue => exact hinv
    case isFalse hne =>
      have hzero : (w.sets j).bitSize = 0 := hok.resolve_left hne
      have hrep := hinv j a ha
      refine (hinv.update fun b hb => ?_).update nofun
      cases hb
      exact ⟨by rw [hzero]; rfl, hrep.size, hrep.lt, fun k hk => absurd (hrep.size ▸ hk) (by omega)⟩
  | isSet i idx =>
    obtain ⟨-, rfl⟩ := Option.ite_none_right_eq_some.mp hstep |>.imp id Option.some.inj
    exact hinv
  | firstSet i =>
    obtain ⟨-, rfl⟩ := Option.ite_none_right_eq_some.mp hstep |>.imp id Option.some.inj
    exact hinv

/-- An operation that meets its condition answers right. -/
theorem Inv.answers (hinv : w.Inv) (hstep : w.step op = some w') (hok : Meets ⟨w, op, w'⟩) :
    Answers ⟨w, op, w'⟩ where
  shows i a ha := (hinv.step hstep hok i a ha).shows
  isSet i idx a hop ha := by
    subst hop
    exact (hinv i a ha).isSet_iff.mpr hok
  firstSet i a hop ha := by
    subst hop
    exact (hinv i a ha).isFirst_iff.mpr hok

/-- An operation that answers right meets its condition. -/
theorem Inv.meets (hinv : w.Inv) (hstep : w.step op = some w') (hans : Answers ⟨w, op, w'⟩) :
    Meets ⟨w, op, w'⟩ := by
  cases op with
  | call i c =>
    obtain ⟨a, ha, hmap⟩ := Option.bind_eq_some_iff.mp hstep
    obtain ⟨s, hs, rfl⟩ := Option.map_eq_some_iff.mp hmap
    have hshows := hans.shows i (a.exec c) nums_update_self
    rw [sets_update_self] at hshows
    exact ((hinv i a ha).exec hs).2 hshows
  | clear i => trivial
  | moveConstruct i j => trivial
  | moveAssign i j =>
    obtain ⟨a, ha, hw'⟩ := Option.map_eq_some_iff.mp hstep
    refine or_iff_not_imp_left.mpr fun hne => ?_
    rw [if_neg hne] at hw'
    subst hw'
    have hshows := hans.shows i a ((nums_update_of_ne hne).trans nums_update_self)
    rw [sets_update_of_ne hne, sets_update_self] at hshows
    exact (shows_nil_iff (hinv j a ha)).mp hshows
  | isSet i idx =>
    obtain ⟨⟨hsome, -⟩, -⟩ := Option.ite_none_right_eq_some.mp hstep
    obtain ⟨a, ha⟩ := Option.isSome_iff_exists.mp hsome
    exact (hinv i a ha).isSet_iff.mp (hans.isSet i idx a rfl ha)
  | firstSet i =>
    obtain ⟨hsome, -⟩ := Option.ite_none_right_eq_some.mp hstep
    obtain ⟨a, ha⟩ := Option.isSome_iff_exists.mp hsome
    exact (hinv i a ha).isFirst_iff.mp (hans.firstSet i a rfl ha)

end World

/-- **All bit sets are right along a run exactly if** no `resize` rounds up past 32 bits or grows from a
full word that is not zero, no `push_back` reaches 2^32 bits, all move assignments are from empty bit
sets, no query is for a bit left behind the size, and where `first_set` is called, the lowest bit is in
the first word and not behind the size. -/
theorem answers_iff (ops : List Op) :
    (∀ t ∈ steps World.step {} ops, Answers t) ↔ ∀ t ∈ steps World.step {} ops, Meets t :=
  forall_steps_iff World.inv_init (fun _ ht hinv hok => hinv.step (step_of_mem ht) hok) fun _ ht hinv =>
    ⟨hinv.meets (step_of_mem ht), hinv.answers (step_of_mem ht)⟩

/-- The only member is 64, and `first_set` says 1. -/
theorem firstSet_secondWord :
    ¬ ∀ t ∈ steps World.step {} [.call 0 (.resize 65), .call 0 (.markSet 64), .firstSet 0], Answers t := by
  intro hall
  rw [steps_of_some (show World.step {} (.call 0 (.resize 65)) =
      some (World.update {} 0 { data := [0, 0], bitSize := 65 } (some (Bounded.resize {} 65))) from rfl),
    steps_of_some (show World.step _ (.call 0 (.markSet 64)) =
      some (World.update _ 0 { data := [0, 1], bitSize := 65 }
        (some ((Bounded.resize {} 65).markSet 64))) from rfl),
    steps_of_some (show World.step _ (.firstSet 0) = some _ from rfl)] at hall
  have hans := hall _ (List.mem_cons_of_mem _ (List.mem_cons_of_mem _ (List.mem_singleton_self _)))
  have hfirst :
    Bounded.IsFirst ((Bounded.resize {} 65).markSet 64) (firstSet { data := [0, 1], bitSize := 65 }) :=
    hans.firstSet 0 _ rfl World.nums_update_self
  rw [show firstSet { data := [0, 1], bitSize := 65 } = some 1 by decide +kernel] at hfirst
  have hmem : 1 ∈ ((Bounded.resize {} 65).markSet 64).members := hfirst.1
  revert hmem
  decide

end SmallBitSet

end Tpde.Util
