import Mathlib.Data.BitVec
import Mathlib.Data.Multiset.Count
import Mathlib.Data.List.Nodup

/-!
# Straight-line code on registers and slots

A machine has registers of 64 bits, a memory slot for each value and addresses that never
change. Code is a list of instructions: some write a register by an operation on
registers, others move a value between a register and its slot.

Two words agree on their low bits (`Agree`) when those bits are the same: all that is
left of a value that went through its slot.
-/

namespace RegMachine

/-- The contents of a register. -/
abbrev Word := BitVec 64

/-! ### Low bits -/

/-- The low `n` bits of a word. -/
def low (n : ℕ) (x : Word) : Word := (x.setWidth n).setWidth 64

/-- Two words with the same low `n` bits. -/
def Agree (n : ℕ) (x y : Word) : Prop := x.setWidth n = y.setWidth n

theorem agree_low {n : ℕ} (hn : n ≤ 64) (x : Word) : Agree n (low n x) x := by
  simp [Agree, low, BitVec.setWidth_setWidth_of_le _ hn]

theorem Agree.trans {n : ℕ} {x y z : Word} (hxy : Agree n x y) (hyz : Agree n y z) : Agree n x z :=
  Eq.trans hxy hyz

theorem Agree.mono {m n : ℕ} {x y : Word} (hmn : m ≤ n) (h : Agree n x y) : Agree m x y := by
  have := congrArg (BitVec.setWidth m) h
  rwa [BitVec.setWidth_setWidth_of_le _ hmn, BitVec.setWidth_setWidth_of_le _ hmn] at this

/-- The low `n` bits as a signed number. -/
def sext (n : ℕ) (x : Word) : Word := (x.setWidth n).signExtend 64

/-! ### Machines -/

/-- The registers and the memory that code works on. `V` are the values with a slot. -/
structure Machine (V : Type) where
  reg : ℕ → Word
  slot : V → Word
  addr : V → Word

/-- An instruction: a register written by an operation, a value loaded from its slot with
zeros above its bits, a value stored to its slot, and the address of a value. -/
inductive Instr (V ι : Type) where
  | set (d : ℕ) (op : ι)
  | reload (d : ℕ) (v : V) (bits : ℕ)
  | spill (v : V) (r : ℕ) (bits : ℕ)
  | address (d : ℕ) (v : V)
  deriving DecidableEq, Repr

variable {V ι : Type} [DecidableEq V] (eval : ι → (ℕ → Word) → Word)

/-- The effect of an instruction. -/
def exec (m : Machine V) : Instr V ι → Machine V
  | .set d op => { m with reg := Function.update m.reg d (eval op m.reg) }
  | .reload d v bits => { m with reg := Function.update m.reg d (low bits (m.slot v)) }
  | .spill v r bits => { m with slot := Function.update m.slot v (low bits (m.reg r)) }
  | .address d v => { m with reg := Function.update m.reg d (m.addr v) }

/-- The effect of code. -/
def run (m : Machine V) (code : List (Instr V ι)) : Machine V := code.foldl (exec eval) m

@[simp] theorem run_nil (m : Machine V) : run eval m ([] : List (Instr V ι)) = m := rfl

@[simp] theorem run_append (m : Machine V) (code code' : List (Instr V ι)) :
    run eval m (code ++ code') = run eval (run eval m code) code' := List.foldl_append ..

@[simp] theorem run_cons (m : Machine V) (i : Instr V ι) (code : List (Instr V ι)) :
    run eval m (i :: code) = run eval (exec eval m i) code := rfl

@[simp] theorem exec_addr (m : Machine V) (i : Instr V ι) : (exec eval m i).addr = m.addr := by
  cases i <;> rfl

@[simp] theorem run_addr (m : Machine V) (code : List (Instr V ι)) : (run eval m code).addr = m.addr := by
  induction code generalizing m with
  | nil => rfl
  | cons i code ih => exact (ih _).trans (exec_addr eval m i)

/-! ### Locked registers -/

/-- Where fewer locks are held than there are registers left, a register is not locked. -/
theorem exists_not_mem {regs : List ℕ} (hnodup : regs.Nodup) (p : ℕ → Bool) (held : Multiset ℕ)
    (h : (regs.filter p).length + held.card < regs.length) : ∃ r ∈ regs, p r = false ∧ r ∉ held := by
  by_contra hnone
  simp only [not_exists, not_and, not_not] at hnone
  have hsub : ((regs.filter fun r => !p r : List ℕ) : Multiset ℕ) ≤ held := by
    refine (Multiset.le_iff_subset ((Multiset.coe_nodup).mpr (hnodup.filter _))).mpr fun r hr => ?_
    obtain ⟨hmem, hp⟩ := List.mem_filter.mp (Multiset.mem_coe.mp hr)
    exact hnone r hmem (by simpa using hp)
  have hcard := Multiset.card_le_card hsub
  have hsplit := List.length_eq_length_filter_add (l := regs) p
  rw [Multiset.coe_card] at hcard
  omega

end RegMachine
