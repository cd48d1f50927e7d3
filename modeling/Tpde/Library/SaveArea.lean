import Tpde.Library.Bytes
import Mathlib.Logic.Function.Basic
import Mathlib.Tactic.NormNum

/-!
# Registers that are saved in memory

A machine with registers and bytes of memory, with addresses of 64 bits that wrap around.
Registers that were stored to slots that are apart are loaded back from them as long as the
bytes of the slots stay what they were (`load_saveAll`, `Untouched.load`).
-/

namespace SaveArea

/-- Registers, memory and where control goes when it leaves the program. -/
structure Machine where
  reg : ℕ → BitVec 64
  mem : BitVec 64 → UInt8
  pc : BitVec 64

namespace Machine

variable (m : Machine)

def setReg (r : ℕ) (v : BitVec 64) : Machine := { m with reg := Function.update m.reg r v }

/-- Eight bytes of memory. -/
def load (a : BitVec 64) : BitVec 64 :=
  BitVec.ofNat 64 (Bytes.toNat ((List.range 8).map fun i => m.mem (a + BitVec.ofNat 64 i)))

def store (a v : BitVec 64) : Machine :=
  { m with mem := fun x => ((Bytes.ofNat 8 v.toNat)[(x - a).toNat]?).getD (m.mem x) }

@[simp] theorem reg_store (a v : BitVec 64) : (m.store a v).reg = m.reg := rfl

@[simp] theorem pc_store (a v : BitVec 64) : (m.store a v).pc = m.pc := rfl

@[simp] theorem mem_setReg (r : ℕ) (v : BitVec 64) : (m.setReg r v).mem = m.mem := rfl

@[simp] theorem load_setReg (r : ℕ) (v a : BitVec 64) : (m.setReg r v).load a = m.load a := rfl

@[simp] theorem setReg_self (r : ℕ) (v : BitVec 64) : (m.setReg r v).reg r = v := Function.update_self ..

theorem setReg_of_ne {r r' : ℕ} (h : r' ≠ r) (v : BitVec 64) : (m.setReg r v).reg r' = m.reg r' :=
  Function.update_of_ne h ..

/-- A register that is set to what it has. -/
theorem setReg_of_eq {r : ℕ} {v : BitVec 64} (h : m.reg r = v) :
    m.setReg r v = m := by rw [setReg, ← h, Function.update_eq_self]

@[simp] theorem setReg_setReg (r : ℕ) (v v' : BitVec 64) : (m.setReg r v).setReg r v' = m.setReg r v' := by
  rw [setReg, setReg, setReg, Function.update_idem]

theorem load_store (a v : BitVec 64) : (m.store a v).load a = v := by
  have hbytes : (List.range 8).map (fun i => (m.store a v).mem (a + BitVec.ofNat 64 i)) =
    Bytes.ofNat 8 v.toNat := by
    refine List.ext_getElem (by simp) fun i hi hi' => ?_
    have hi : i < 8 := by simpa using hi
    have hidx : (a + BitVec.ofNat 64 i - a).toNat = i := by
      rw [BitVec.add_comm, BitVec.add_sub_cancel, BitVec.toNat_ofNat, Nat.mod_eq_of_lt (by omega)]
    rw [List.getElem_map, List.getElem_range, store]
    dsimp only
    rw [hidx, List.getElem?_eq_getElem hi', Option.getD_some]
  rw [load, hbytes, Bytes.toNat_ofNat, Nat.mod_eq_of_lt (v.isLt.trans_eq (by norm_num)),
    BitVec.ofNat_toNat, BitVec.setWidth_eq]

end Machine

/-- Slots of eight bytes do not overlap. -/
def Apart (o o' : BitVec 64) : Prop := 8 ≤ (o - o').toNat ∧ 8 ≤ (o' - o).toNat

theorem Apart.symm {o o' : BitVec 64} (h : Apart o o') : Apart o' o := ⟨h.2, h.1⟩

theorem apart_ofNat {k k' : ℕ} (h : k + 8 ≤ k') (hk' : k' < 2 ^ 32) :
    Apart (BitVec.ofNat 64 k) (BitVec.ofNat 64 k') := by
  constructor <;> bv_omega

/-- The bytes of a slot. -/
theorem Apart.byte {o o' : BitVec 64} (h : Apart o o') (base : BitVec 64) {i : ℕ} (hi : i < 8) :
    8 ≤ (base + o' + BitVec.ofNat 64 i - (base + o)).toNat := by
  obtain ⟨h, h'⟩ := h
  bv_omega

variable {m m' : Machine} {base : BitVec 64}

theorem mem_store_of_le {a v x : BitVec 64} (h : 8 ≤ (x - a).toNat) : (m.store a v).mem x = m.mem x := by
  rw [Machine.store]
  dsimp only
  rw [List.getElem?_eq_none (by simpa using h), Option.getD_none]

theorem load_store_of_apart {o o' : BitVec 64} (h : Apart o o') (v : BitVec 64) :
    (m.store (base + o) v).load (base + o') = m.load (base + o') := by
  rw [Machine.load, Machine.load]
  congr 2
  exact List.map_congr_left fun i hi => mem_store_of_le (h.byte base (List.mem_range.mp hi))

/-- The registers are stored to their slots behind `base`. -/
def saveAll (base : BitVec 64) (slots : List (ℕ × BitVec 64)) (m : Machine) : Machine :=
  slots.foldl (fun m x => m.store (base + x.2) (m.reg x.1)) m

@[simp] theorem saveAll_nil : saveAll base [] m = m := rfl

theorem saveAll_cons (x : ℕ × BitVec 64) (slots : List (ℕ × BitVec 64)) :
    saveAll base (x :: slots) m = saveAll base slots (m.store (base + x.2) (m.reg x.1)) := rfl

@[simp]
theorem reg_saveAll (slots : List (ℕ × BitVec 64)) : (saveAll base slots m).reg = m.reg := by
  induction slots generalizing m with
  | nil => rfl
  | cons x slots ih => rw [saveAll_cons, ih, Machine.reg_store]

theorem saveAll_setReg {slots : List (ℕ × BitVec 64)} {r : ℕ} (h : ∀ x ∈ slots, x.1 ≠ r) (v : BitVec 64) :
    saveAll base slots (m.setReg r v) = (saveAll base slots m).setReg r v := by
  induction slots generalizing m with
  | nil => rfl
  | cons x slots ih =>
    rw [saveAll_cons, saveAll_cons, ← ih fun y hy => h y (List.mem_cons_of_mem _ hy),
      m.setReg_of_ne (h x List.mem_cons_self)]
    rfl

@[simp]
theorem pc_saveAll (slots : List (ℕ × BitVec 64)) : (saveAll base slots m).pc = m.pc := by
  induction slots generalizing m with
  | nil => rfl
  | cons x slots ih => rw [saveAll_cons, ih, Machine.pc_store]

/-- A slot that is apart from all that are stored to. -/
theorem load_saveAll_of_apart {slots : List (ℕ × BitVec 64)} {o : BitVec 64} (h : ∀ x ∈ slots, Apart x.2 o) :
    (saveAll base slots m).load (base + o) = m.load (base + o) := by
  induction slots generalizing m with
  | nil => rfl
  | cons x slots ih =>
    rw [saveAll_cons, ih fun y hy => h y (List.mem_cons_of_mem _ hy),
      load_store_of_apart (h x List.mem_cons_self)]

/-- **Each slot has its register.** -/
theorem load_saveAll {slots : List (ℕ × BitVec 64)} (h : slots.Pairwise fun x y => Apart x.2 y.2) :
    ∀ x ∈ slots, (saveAll base slots m).load (base + x.2) = m.reg x.1 := by
  induction slots generalizing m with
  | nil => nofun
  | cons y slots ih =>
    obtain ⟨hy, h⟩ := List.pairwise_cons.mp h
    refine List.forall_mem_cons.mpr ⟨?_, fun x hx => ?_⟩
    · rw [saveAll_cons, load_saveAll_of_apart fun x hx => (hy x hx).symm, Machine.load_store]
    · rw [saveAll_cons, ih h x hx, Machine.reg_store]

/-- The registers are loaded from their slots behind `base`. -/
def restoreAll (base : BitVec 64) (slots : List (ℕ × BitVec 64)) (m : Machine) : Machine :=
  slots.foldl (fun m x => m.setReg x.1 (m.load (base + x.2))) m

theorem restoreAll_cons (x : ℕ × BitVec 64) (slots : List (ℕ × BitVec 64)) :
    restoreAll base (x :: slots) m = restoreAll base slots (m.setReg x.1 (m.load (base + x.2))) := rfl

@[simp]
theorem mem_restoreAll (slots : List (ℕ × BitVec 64)) : (restoreAll base slots m).mem = m.mem := by
  induction slots generalizing m with
  | nil => rfl
  | cons x slots ih => rw [restoreAll_cons, ih, Machine.mem_setReg]

theorem restoreAll_of_not_mem {slots : List (ℕ × BitVec 64)} {r : ℕ} (h : ∀ x ∈ slots, r ≠ x.1) :
    (restoreAll base slots m).reg r = m.reg r := by
  induction slots generalizing m with
  | nil => rfl
  | cons x slots ih =>
    rw [restoreAll_cons, ih fun y hy => h y (List.mem_cons_of_mem _ hy),
      m.setReg_of_ne (h x List.mem_cons_self)]

/-- Each register has what is in its slot. -/
theorem restoreAll_of_mem {slots : List (ℕ × BitVec 64)} (h : (slots.map Prod.fst).Nodup) :
    ∀ x ∈ slots, (restoreAll base slots m).reg x.1 = m.load (base + x.2) := by
  induction slots generalizing m with
  | nil => nofun
  | cons y slots ih =>
    obtain ⟨hy, h⟩ := List.nodup_cons.mp h
    refine List.forall_mem_cons.mpr ⟨?_, fun x hx => ?_⟩
    · rw [restoreAll_cons, restoreAll_of_not_mem, m.setReg_self]
      intro x hx heq
      exact hy (heq ▸ List.mem_map_of_mem hx)
    · rw [restoreAll_cons, ih h x hx, Machine.load_setReg]

/-- The bytes from `lo` on are what they were. -/
def Untouched (m m' : Machine) (lo : BitVec 64) (n : ℕ) : Prop :=
  ∀ i < n, m'.mem (lo + BitVec.ofNat 64 i) = m.mem (lo + BitVec.ofNat 64 i)

theorem Untouched.load {lo : BitVec 64} {n k : ℕ} (h : Untouched m m' lo n) (hk : k + 8 ≤ n) :
    m'.load (lo + BitVec.ofNat 64 k) = m.load (lo + BitVec.ofNat 64 k) := by
  rw [Machine.load, Machine.load]
  congr 2
  refine List.map_congr_left fun i hi => ?_
  have hi := List.mem_range.mp hi
  rw [BitVec.add_assoc, ← BitVec.ofNat_add]
  exact h (k + i) (by omega)

/-- Registers with slots that are `step` from each other. -/
def slotsFrom (step : BitVec 64) : BitVec 64 → List ℕ → List (ℕ × BitVec 64)
  | _, [] => []
  | o, r :: rs => (r, o) :: slotsFrom step (o + step) rs

variable {step o : BitVec 64} {rs : List ℕ}

@[simp]
theorem map_fst_slotsFrom : (slotsFrom step o rs).map Prod.fst = rs := by
  induction rs generalizing o with
  | nil => rfl
  | cons r rs ih => rw [slotsFrom, List.map_cons, ih]

theorem mem_slotsFrom {x : ℕ × BitVec 64} (h : x ∈ slotsFrom step o rs) : ∃ k < rs.length,
    x.2 = o + BitVec.ofNat 64 k * step := by
  induction rs generalizing o with
  | nil => cases h
  | cons r rs ih =>
    rcases List.mem_cons.mp h with rfl | h
    · exact ⟨0, by simp, by simp⟩
    · obtain ⟨k, hk, heq⟩ := ih h
      refine ⟨k + 1, by simpa using hk, ?_⟩
      rw [heq, BitVec.ofNat_add, BitVec.add_mul, BitVec.add_comm (BitVec.ofNat 64 k * step),
        ← BitVec.add_assoc]
      congr 2
      exact (BitVec.one_mul ..).symm

theorem exists_slot {r : ℕ} (h : r ∈ rs) : ∃ o', (r, o') ∈ slotsFrom step o rs := by
  rw [← @map_fst_slotsFrom step o rs, List.mem_map] at h
  obtain ⟨⟨r, o'⟩, h, rfl⟩ := h
  exact ⟨o', h⟩

/-- Slots up or down in memory are apart. -/
theorem apart_slotsFrom (hstep : step = 8 ∨ step = -8) (hlen : rs.length < 2 ^ 32) :
    (slotsFrom step o rs).Pairwise fun x y => Apart x.2 y.2 := by
  induction rs generalizing o with
  | nil => exact .nil
  | cons r rs ih =>
    rw [List.length_cons] at hlen
    refine List.pairwise_cons.mpr ⟨fun x hx => ?_, ih (by omega)⟩
    obtain ⟨k, hk, heq⟩ := mem_slotsFrom hx
    dsimp only
    rw [heq, Apart]
    have hk' : k < 2 ^ 32 := by omega
    rcases hstep with rfl | rfl
    · constructor <;> bv_omega
    · rw [BitVec.mul_neg]
      constructor <;> bv_omega

end SaveArea
