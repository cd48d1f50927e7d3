import Tpde.Library.VaList
import Tpde.Target.CallConv
import Tpde.Target.PrologueA64

/-!
# The start of variable arguments

The prologue of a variadic function saves the argument registers, and `gen_func_prolog_and_args`
works out how many of them the parameters have used: not from the assigner, but from the registers
that have become allocatable. `llvm.va_start` writes the `va_list` from that.

The `va_list` denotes where the assigner stopped if the stack area of the parameters ends at a
multiple of 8, and on AArch64 if no register was given up before the last of its bank was used
(`vaStart_iff`).
-/

namespace Tpde.Target

open VaList Ranges

/-! ### Registers -/

/-- The parts of the parameters, assigned, and the state of the assigner behind them. -/
def CCAssigner.assignParams {σ : Type} (A : CCAssigner σ) (params : List Arg) : σ × List CCAssignment :=
  let r := A.assignArgs A.init (params.map handleFuncArg)
  (r.1, r.2.flatten)

/-- `register_file.allocatable` behind the loop over the parameters: no argument register at first,
then each that is assigned. -/
def allocatableAfter (allocatable argRegs : BitVec 64) (parts : List CCAssignment) : BitVec 64 :=
  parts.foldl (fun set p => match p.reg with
    | some reg => set ||| BitVec.twoPow 64 reg
    | none => set) (allocatable &&& ~~~argRegs)

/-- `bank_regs`. -/
def bankRegs (bank : ℕ) : BitVec 64 := BitVec.ofNat 64 (2 ^ 32 - 1) <<< (32 * bank)

def popcount (set : BitVec 64) : ℕ := (List.range 64).countP set.getLsbD

/-- A `u32` as a signed number. -/
def toI32 (n : ℕ) : ℤ := if n < 2 ^ 31 then n else n - 2 ^ 32

/-- What the function finds at an address: registers that its prologue has saved, by their distance
from the frame pointer, and the arguments on the stack. -/
def frameMem (saves : List (ℤ × ℕ)) (passedIn : ℕ → Option Place) (fp args addr : ℤ) : Option Place :=
  match saves.lookup (addr - fp) with
  | some reg => passedIn reg
  | none => if args ≤ addr then some (.stack (addr - args).toNat) else none

/-! ### x86-64 -/

namespace X64

open A64 (createBitmask)

/-- `arg_regs` of `CCAssignerSysV`. -/
def argRegs : BitVec 64 := createBitmask (CCAssignerSysV.gpArgRegs ++ CCAssignerSysV.xmmArgRegs)

/-- `allocatable_regs`: without BP and SP. -/
def allocatableRegs : BitVec 64 := 0xFFFF0000FFFF &&& ~~~createBitmask [5, 4]

/-- `reg_save_frame_off`, below five callee-saved registers. -/
def regSaveFrameOff : ℕ := 8 * 5 + (6 * 8 + 8 * 16)

/-- The stores to the save area; those of vector registers are skipped if AL is 0. -/
def saves (al : BitVec 8) : List (ℤ × ℕ) :=
  ([7, 6, 2, 1, 8, 9].mapIdx fun i reg => (-(regSaveFrameOff : ℤ) + 8 * i, reg)) ++
    if al = 0 then [] else [32, 33, 34, 35, 36, 37, 38, 39].mapIdx fun i reg =>
      (-(regSaveFrameOff : ℤ) + 48 + 16 * i, reg)

/-- What a function remembers of its parameters. -/
structure VarArgInfo where
  scalarArgCount : ℕ
  vecArgCount : ℕ
  varArgStackOff : ℕ
  deriving DecidableEq, Repr

/-- `gen_func_prolog_and_args`, of a variadic function. -/
def genFuncPrologAndArgs (params : List Arg) : VarArgInfo :=
  let (assigner, parts) := sysV.assignParams params
  let regs := allocatableAfter allocatableRegs argRegs parts &&& argRegs
  ⟨popcount (regs &&& bankRegs 0), popcount (regs &&& bankRegs 1),
    (0x10 + sysV.getStackSize assigner) % 2 ^ 32⟩

/-- `llvm.va_start`: both offsets are written as one number of 64 bits. -/
def vaStart (info : VarArgInfo) (fp : ℤ) : SysV :=
  let combinedOff := (info.vecArgCount * 16 + 48) <<< 32 ||| info.scalarArgCount * 8
  { gpOffset := combinedOff % 2 ^ 32
    fpOffset := combinedOff / 2 ^ 32
    overflowArgArea := fp + toI32 info.varArgStackOff
    regSaveArea := fp - regSaveFrameOff }

/-- The place of a register in the convention. -/
def passedIn (reg : ℕ) : Option Place :=
  if reg ∈ CCAssignerSysV.gpArgRegs then some (.gp (CCAssignerSysV.gpArgRegs.idxOf reg))
  else if reg ∈ CCAssignerSysV.xmmArgRegs then some (.fp (CCAssignerSysV.xmmArgRegs.idxOf reg)) else none

/-- The frame behind the prologue, which has pushed the frame pointer. -/
def mem (al : BitVec 8) (fp : ℤ) : ℤ → Option Place := frameMem (saves al) passedIn fp (fp + 16)

/-- The cursor where the assigner stopped. -/
def cursor (params : List Arg) : Cursor :=
  let assigner := (sysV.assignParams params).1
  ⟨assigner.gpCnt, assigner.xmmCnt, assigner.stack⟩

/-- **Variable arguments are read where a caller has put them** that goes on where the assigner
stopped, and says in AL if there are any in vector registers. -/
def Continues (params : List Arg) : Prop :=
  ∀ (fp : ℤ) (al : BitVec 8) (args : List VarArg), 16 ∣ fp → (∀ a ∈ args, SysV.convention.Valid a) →
    (∀ ps ∈ SysV.convention.placeAll (cursor params) args, ∀ i, .fp i ∈ ps → al ≠ 0) →
    SysV.convention.Agrees (mem al fp) (vaStart (genFuncPrologAndArgs params) fp) (cursor params) args

end X64

/-! ### AArch64 -/

namespace A64

/-- `arg_regs` of `CCAssignerAAPCS`, with the register for the result pointer. -/
def argRegs : BitVec 64 := createBitmask (List.range 9 ++ List.range' 32 8)

/-- `allocatable_regs`: without SP, FP, X16 and X17. -/
def allocatableRegs : BitVec 64 := ~~~createBitmask [31, 29, 16, 17]

/-- `reg_save_frame_off`. -/
def regSaveFrameOff : ℕ := startFrameSize

/-- `stack.frame_size` behind the save area and the pointer to the stack area. -/
def varArgFrameSize : ℕ := startFrameSize + (8 * 8 + 8 * 16 + 16)

/-- The stores to the save area. -/
def saves : List (ℤ × ℕ) :=
  [0, 1, 2, 3, 4, 5, 6, 7].mapIdx (fun i reg => ((regSaveFrameOff : ℤ) + 8 * i, reg)) ++
    [32, 33, 34, 35, 36, 37, 38, 39].mapIdx fun i reg => ((regSaveFrameOff : ℤ) + 64 + 16 * i, reg)

/-- `cnt_lz<u16>`. -/
def cntLz16 (n : ℕ) : ℕ := if n = 0 then 16 else 15 - Nat.log2 n

/-- The registers of a bank that are used, from the set of those that are assigned. -/
def usedRegs (set : BitVec 64) : ℕ := 8 - cntLz16 (((set &&& 0xff) <<< 8 ||| 0x80).toNat % 2 ^ 16)

/-- `ADDxi` has an immediate of 12 bits, which may be shifted by 12. -/
def AddImm (n : ℕ) : Prop := n < 4096 ∨ (4096 ∣ n ∧ n < 2 ^ 24)

instance (n : ℕ) : Decidable (AddImm n) := inferInstanceAs (Decidable (_ ∨ _))

/-- What a function remembers of its parameters; the size of the stack area is in its code. -/
structure VarArgInfo where
  scalarArgCount : ℕ
  vecArgCount : ℕ
  stackSize : ℕ
  deriving DecidableEq, Repr

/-- `gen_func_prolog_and_args`, of a variadic function. It fails where the address of the variable
arguments on the stack cannot be encoded. What it emits for the parameters themselves, their loads from
the stack and the addresses of those by value, is left out. -/
def genFuncPrologAndArgs (params : List Arg) : Option VarArgInfo :=
  let (assigner, parts) := aapcs.assignParams params
  let regs := allocatableAfter allocatableRegs argRegs parts &&& argRegs
  if AddImm (aapcs.getStackSize assigner) then
    some ⟨usedRegs regs, usedRegs (regs >>> 32), aapcs.getStackSize assigner⟩
  else none

/-- `llvm.va_start`. The frame has `frameSize` bytes, and the arguments on the stack are above it: the
address where those of the parameters end is computed in the prologue and kept in the frame. -/
def vaStart (info : VarArgInfo) (fp : ℤ) (frameSize : ℕ) : Aapcs :=
  { stack := fp + frameSize + info.stackSize
    grTop := fp + regSaveFrameOff + 64
    vrTop := fp + regSaveFrameOff + (64 + 128)
    grOffs := toI32 ((2 ^ 32 - (8 - info.scalarArgCount) * 8) % 2 ^ 32)
    vrOffs := toI32 ((2 ^ 32 - (8 - info.vecArgCount) * 16) % 2 ^ 32) }

/-- The place of a register in the convention. -/
def passedIn (reg : ℕ) : Option Place := if reg < 8 then some (.gp reg) else if 32 ≤ reg ∧ reg < 40 then
    some (.fp (reg - 32)) else none

/-- The frame behind the prologue. -/
def mem (fp : ℤ) (frameSize : ℕ) : ℤ → Option Place := frameMem saves passedIn fp (fp + frameSize)

/-- The cursor where the assigner stopped. -/
def cursor (params : List Arg) : Cursor :=
  let assigner := (aapcs.assignParams params).1
  ⟨assigner.ngrn, assigner.nsrn, assigner.nsaa⟩

/-- **Variable arguments are read where a caller has put them** that goes on where the assigner
stopped, however large the frame becomes that an assertion lets pass. -/
def Continues (params : List Arg) : Prop :=
  ∃ info, genFuncPrologAndArgs params = some info ∧ ∀ (fp : ℤ) (locals : ℕ) (args : List VarArg), 16 ∣ fp →
    finalFrameSize (varArgFrameSize + locals) < 16 * 1024 * 1024 → (∀ a ∈ args, Aapcs.convention.Valid a) →
    Aapcs.convention.Agrees (mem fp (finalFrameSize (varArgFrameSize + locals)))
      (vaStart info fp (finalFrameSize (varArgFrameSize + locals))) (cursor params) args

/-- Before a bank of registers was given up, the last of its registers was used. -/
def UsesUp (params : List Arg) : Prop :=
  let (assigner, parts) := aapcs.assignParams params
  (assigner.ngrn = 8 → ∃ p ∈ parts, p.reg = some 7) ∧ (assigner.nsrn = 8 → ∃ p ∈ parts, p.reg = some 39)

end A64

/-! ### Counted registers -/

theorem handleFuncArg_reg (arg : Arg) : ∀ p ∈ handleFuncArg arg, p.reg = none := by
  intro p hp
  unfold handleFuncArg at hp
  split at hp
  · obtain rfl := List.mem_singleton.mp hp
    rfl
  · obtain ⟨part, -, rfl⟩ := List.mem_map.mp hp
    rfl
  · obtain ⟨i, hi, rfl⟩ := List.mem_mapIdx.mp hp
    rfl

/-- Something that a step of the assigner keeps for parts that have no register yet. -/
theorem assignParams_induction {σ : Type} {A : CCAssigner σ} {I : σ → List CCAssignment → Prop}
    (hinit : I A.init [])
    (hstep : ∀ s out p, p.reg = none → I s out → I (A.assignArg s p).1 (out ++ [(A.assignArg s p).2]))
    (params : List Arg) :
    I (A.assignParams params).1 (A.assignParams params).2 := by
  obtain ⟨hstate, hparts⟩ := assignArgs_flatten A A.init (params.map handleFuncArg)
  rw [CCAssigner.assignParams]
  dsimp only
  rw [hstate, hparts]
  have hreg : ∀ p ∈ (params.map handleFuncArg).flatten, p.reg = none := by
    intro p hp
    obtain ⟨ps, hps, hp⟩ := List.mem_flatten.mp hp
    obtain ⟨arg, -, rfl⟩ := List.mem_map.mp hps
    exact handleFuncArg_reg arg p hp
  have hrun : ∀ (ps : List CCAssignment) (s : σ) (out : List CCAssignment),
    (∀ p ∈ ps, p.reg = none) → I s out →
      I (A.assignAll s ps).1 (out ++ (A.assignAll s ps).2) := by
    intro ps
    induction ps with
    | nil =>
      intro s out _ h
      simpa using h
    | cons p ps ih =>
      intro s out hps h
      have :=
        ih _ _ (fun q hq => hps q (List.mem_cons_of_mem _ hq)) (hstep s out p (hps p List.mem_cons_self) h)
      simpa using this
  simpa using hrun _ A.init [] hreg hinit

theorem allocatableAfter_append (allocatable argRegs : BitVec 64) (parts : List CCAssignment)
    (p : CCAssignment) :
    allocatableAfter allocatable argRegs (parts ++ [p]) = match p.reg with
      | some reg => allocatableAfter allocatable argRegs parts ||| BitVec.twoPow 64 reg
      | none => allocatableAfter allocatable argRegs parts := by
  simp [allocatableAfter]

/-! ### The counts on x86-64 -/

namespace X64

/-- The registers that are allocatable when `gp` and `fp` argument registers are assigned. -/
def assignedRegs (gp fp : ℕ) : BitVec 64 :=
  allocatableRegs &&& ~~~argRegs |||
    A64.createBitmask (CCAssignerSysV.gpArgRegs.take gp ++ CCAssignerSysV.xmmArgRegs.take fp)

theorem popcount_assignedRegs : ∀ gp < 7, ∀ fp < 9,
    popcount (assignedRegs gp fp &&& argRegs &&& bankRegs 0) = gp ∧
    popcount (assignedRegs gp fp &&& argRegs &&& bankRegs 1) = fp := by
  decide +kernel

theorem assignedRegs_gp : ∀ gp < 6, ∀ fp < 9, ∀ reg, CCAssignerSysV.gpArgRegs[gp]? = some reg →
    assignedRegs gp fp ||| BitVec.twoPow 64 reg = assignedRegs (gp + 1) fp := by
  have h : ∀ gp < 6, ∀ fp < 9, assignedRegs gp fp ||| BitVec.twoPow 64 (CCAssignerSysV.gpArgRegs.getD gp 0) =
      assignedRegs (gp + 1) fp := by decide +kernel
  intro gp hgp fp hfp reg hreg
  have := h gp hgp fp hfp
  rwa [List.getD_eq_getElem?_getD, hreg] at this

theorem assignedRegs_fp : ∀ gp < 7, ∀ fp < 8,
    assignedRegs gp fp ||| BitVec.twoPow 64 (32 + fp) = assignedRegs gp (fp + 1) := by
  decide +kernel

/-- The state of the assigner behind some parts, and the registers that have become allocatable. -/
structure Counted (s : CCAssignerSysV) (parts : List CCAssignment) : Prop where
  gp : s.gpCnt < 7
  xmm : s.xmmCnt < 9
  stack : s.stack < 2 ^ 32
  regs : allocatableAfter allocatableRegs argRegs parts = assignedRegs s.gpCnt s.xmmCnt

theorem Counted.step {s : CCAssignerSysV} {out : List CCAssignment} {p : CCAssignment}
    (hp : p.reg = none) (h : Counted s out) :
    Counted (sysV.assignArg s p).1 (out ++ [(sysV.assignArg s p).2]) := by
  have hgp := h.gp
  have hxmm := h.xmm
  rcases sysV_cases s p with ⟨k, hk, rfl, heq⟩ | ⟨hlt, heq⟩ | ⟨m, heq⟩
  · have hreg := List.getElem?_eq_getElem (show s.gpCnt < CCAssignerSysV.gpArgRegs.length from hk)
    rw [heq]
    refine ⟨Nat.succ_lt_succ hk, hxmm, h.stack, ?_⟩
    rw [allocatableAfter_append, hreg]
    dsimp only
    rw [h.regs, assignedRegs_gp _ hk _ hxmm _ hreg]
  · rw [heq]
    refine ⟨hgp, Nat.succ_lt_succ hlt, h.stack, ?_⟩
    rw [allocatableAfter_append]
    dsimp only
    rw [h.regs, assignedRegs_fp _ hgp _ hlt]
  · rw [heq]
    refine ⟨hgp, hxmm, Nat.mod_lt _ (Nat.two_pow_pos 32), ?_⟩
    rw [allocatableAfter_append]
    dsimp only
    rw [hp]
    exact h.regs

theorem counted (params : List Arg) : Counted (sysV.assignParams params).1 (sysV.assignParams params).2 :=
  assignParams_induction (A := sysV) ⟨by decide, by decide, by decide, by decide +kernel⟩
    (fun _ _ _ hp h => h.step hp) params

/-- The registers are counted right, always. -/
theorem genFuncPrologAndArgs_eq (params : List Arg) : genFuncPrologAndArgs params =
    ⟨(cursor params).gp, (cursor params).fp, (0x10 + (cursor params).stack) % 2 ^ 32⟩ := by
  have h := counted params
  obtain ⟨hgp, hfp⟩ := popcount_assignedRegs _ h.gp _ h.xmm
  rw [genFuncPrologAndArgs]
  dsimp only
  rw [h.regs, hgp, hfp]
  rfl

theorem vaStart_eq {gp vec off : ℕ} (hgp : gp < 7) (fp : ℤ) : vaStart ⟨gp, vec, off⟩ fp =
    ⟨8 * gp, 48 + 16 * vec, fp + toI32 off, fp - regSaveFrameOff⟩ := by
  have hcombined : (vec * 16 + 48) <<< 32 ||| gp * 8 = 2 ^ 32 * (vec * 16 + 48) + gp * 8 := by
    rw [← Nat.shiftLeft_add_eq_or_of_lt (by omega), Nat.shiftLeft_eq]
    omega
  rw [vaStart]
  dsimp only
  rw [hcombined]
  congr 1 <;> omega

/-- The save area holds the registers of the convention. -/
theorem area (al : BitVec 8) {fp : ℤ} (hfp : 16 ∣ fp) :
    SysV.Area (mem al fp) (fp - regSaveFrameOff) (fp + 16) (al ≠ 0) := by
  have hlow (off : ℤ) (h : 0 ≤ off) : (saves al).lookup off = none := by
    rw [List.lookup_eq_none_iff]
    intro x hx
    have hneg : x.1 < 0 := by
      revert x
      by_cases hal : al = 0 <;> simp only [saves, hal, if_true, if_false] <;> decide
    exact bne_iff_ne.mpr (by omega)
  refine ⟨⟨fun off => ?_, by omega⟩, fun i hi => ?_, fun hal i hi => ?_⟩
  · have hoff : fp + 16 + (off : ℤ) - fp = 16 + off := by omega
    rw [mem, frameMem, hoff, hlow _ (by omega)]
    simp
  · have hoff : fp - regSaveFrameOff + 8 * (i : ℤ) - fp = -(regSaveFrameOff : ℤ) + 8 * i := by omega
    rw [mem, frameMem, hoff]
    have : (saves al).lookup (-(regSaveFrameOff : ℤ) + 8 * i) = CCAssignerSysV.gpArgRegs[i]? := by
      rw [saves, List.lookup_append]
      interval_cases i <;> rfl
    rw [this]
    interval_cases i <;> rfl
  · have hoff :
      fp - regSaveFrameOff + 48 + 16 * (i : ℤ) - fp = -(regSaveFrameOff : ℤ) + 48 + 16 * i := by omega
    rw [mem, frameMem, hoff, saves, if_neg hal]
    interval_cases i <;> rfl

/-- **On x86-64** variable arguments are read where a caller has put them exactly if the stack area of
the parameters ends at a multiple of 8, within the reach of a signed offset. -/
theorem continues_iff (params : List Arg) : Continues params ↔ 8 ∣ (cursor params).stack ∧
    (cursor params).stack + 16 < 2 ^ 31 := by
  have h := counted params
  have hgp : (cursor params).gp < 7 := h.gp
  have hfp : (cursor params).fp < 9 := h.xmm
  have hstack : (cursor params).stack < 2 ^ 32 := h.stack
  constructor
  · intro hread
    have hvalid : SysV.convention.Valid ⟨0, 0, 1, false⟩ := Nat.zero_le 2
    have harea := area 1 (dvd_zero (16 : ℤ))
    have hput :=
      SysV.agrees_memory
        (hread 0 1 [⟨0, 0, 1, false⟩] (dvd_zero 16) (by simpa using hvalid) fun _ _ _ _ => by decide)
    rw [genFuncPrologAndArgs_eq, vaStart_eq hgp] at hput
    dsimp only at hput
    have hreach : (cursor params).stack + 16 < 2 ^ 31 := by
      by_contra hfar
      -- the offset is negative, or the sum is cut to 32 bits: below the arguments there is no stack
      have hbelow : 0 + toI32 ((0x10 + (cursor params).stack) % 2 ^ 32) < 0 + 16 := by
        unfold toI32
        split_ifs <;> omega
      rw [mem, frameMem] at hput
      split at hput
      · rename_i reg _
        rw [passedIn] at hput
        split_ifs at hput <;> cases hput
      · rw [if_neg (not_le.mpr hbelow)] at hput
        cases hput
    refine ⟨?_, hreach⟩
    have hoff :
      0 + toI32 ((0x10 + (cursor params).stack) % 2 ^ 32) = 0 + 16 + ((cursor params).stack : ℤ) := by
      unfold toI32
      split_ifs <;> omega
    rw [hoff, harea.stack] at hput
    have heq : (cursor params).stack = alignUp (cursor params).stack 8 := by simpa using hput
    rw [heq]
    exact dvd_alignUp ..
  · rintro ⟨hdvd, hreach⟩ fp al args hfp16 hvalid hvec
    rw [genFuncPrologAndArgs_eq, vaStart_eq hgp]
    refine SysV.agrees (?_ : SysV.Denotes (fp + 16) _ _) (area al hfp16) args hvec
    refine ⟨by omega, by omega, rfl, rfl, ?_, hdvd⟩
    dsimp only
    unfold toI32
    split_ifs <;> omega

end X64

/-! ### The counts on AArch64 -/

namespace A64

/-- In a set of assigned registers, the number of those that are used is one more than the last. -/
structure Top (set : ℕ → Prop) (n : ℕ) : Prop where
  le : n ≤ 8
  lt : ∀ i < 8, set i → i < n
  last : n = 0 ∨ set (n - 1)

theorem Top.unique {set : ℕ → Prop} {n m : ℕ} (hn : Top set n) (hm : Top set m) : n = m := by
  have hle {n m : ℕ} (hn : Top set n) (hm : Top set m) : n ≤ m := by
    rcases hn.last with hzero | hlast
    · omega
    · have := hn.le
      rcases Nat.eq_zero_or_pos n with hn0 | hn0
      · omega
      · have := hm.lt (n - 1) (by omega) hlast
        omega
  exact le_antisymm (hle hn hm) (hle hm hn)

theorem usedRegs_byte : ∀ m < 256, let n := 8 - cntLz16 (m * 256 + 128)
    n ≤ 8 ∧ (∀ i < 8, m.testBit i = true → i < n) ∧ (n = 0 ∨ m.testBit (n - 1) = true) := by
  decide +kernel

theorem Top.congr {set set' : ℕ → Prop} {n : ℕ} (h : ∀ i < 8, set' i ↔ set i) (hn : Top set n) :
    Top set' n := by
  refine ⟨hn.le, fun i hi hset => hn.lt i hi ((h i hi).mp hset), ?_⟩
  rcases hn.last with hzero | hlast
  · exact .inl hzero
  · rcases Nat.eq_zero_or_pos n with hzero | hpos
    · exact .inl hzero
    · have := hn.le
      exact .inr ((h _ (by omega)).mpr hlast)

theorem usedRegs_top (set : BitVec 64) : Top (fun i => set.getLsbD i = true) (usedRegs set) := by
  have hbyte : (set &&& 0xff).toNat = set.toNat % 2 ^ 8 := by
    rw [BitVec.toNat_and]
    exact Nat.and_two_pow_sub_one_eq_mod set.toNat 8
  have hlt : set.toNat % 2 ^ 8 < 2 ^ 8 := Nat.mod_lt _ (Nat.two_pow_pos 8)
  have hnum : ((set &&& 0xff) <<< 8 ||| 0x80).toNat % 2 ^ 16 = set.toNat % 2 ^ 8 * 256 + 128 := by
    have hor : (set.toNat % 2 ^ 8) <<< 8 ||| 128 = set.toNat % 2 ^ 8 * 256 + 128 := by
      rw [← Nat.shiftLeft_add_eq_or_of_lt (by omega), Nat.shiftLeft_eq]
    have hshift : (set.toNat % 2 ^ 8) <<< 8 % 2 ^ 64 = (set.toNat % 2 ^ 8) <<< 8 := by
      rw [Nat.shiftLeft_eq]
      omega
    have hbit : (0x80 : BitVec 64).toNat = 128 := rfl
    rw [BitVec.toNat_or, BitVec.toNat_shiftLeft, hbyte, hshift, hbit, hor]
    omega
  obtain ⟨hle, hused, hlast⟩ := usedRegs_byte _ hlt
  have hbits : ∀ i < 8, set.getLsbD i = true ↔ (set.toNat % 2 ^ 8).testBit i = true := by
    intro i hi
    rw [Nat.testBit_mod_two_pow]
    simp [hi, BitVec.getLsbD]
  refine Top.congr hbits ?_
  rw [usedRegs, hnum]
  exact ⟨hle, hused, hlast⟩

/-- Among the argument registers those are allocatable that have been assigned. -/
theorem getLsbD_allocatableAfter {allocatable argRegs : BitVec 64} {parts : List CCAssignment} {i : ℕ}
    (hi : argRegs.getLsbD i = true) :
    (allocatableAfter allocatable argRegs parts &&& argRegs).getLsbD i = true ↔ ∃ p ∈ parts,
      p.reg = some i := by
  have hlt : i < 64 := BitVec.lt_of_getLsbD hi
  induction parts using List.reverseRecOn with
  | nil => simp [allocatableAfter, hi]
  | append_singleton parts p ih =>
    rw [BitVec.getLsbD_and, hi, Bool.and_true] at ih ⊢
    rw [allocatableAfter_append]
    cases hreg : p.reg with
    | none => simpa [hreg] using ih
    | some reg =>
      simp only [BitVec.getLsbD_or, BitVec.getLsbD_twoPow, Bool.or_eq_true, ih, List.mem_append,
        List.mem_singleton]
      constructor
      · rintro (⟨q, hq, hqi⟩ | htop)
        · exact ⟨q, .inl hq, hqi⟩
        · obtain rfl : reg = i := by simpa using (by simpa using htop : reg < 64 ∧ reg = i).2
          exact ⟨p, .inr rfl, hreg⟩
      · rintro ⟨q, hq | rfl, hqi⟩
        · exact .inl ⟨q, hq, hqi⟩
        · obtain rfl := Option.some.inj (hreg.symm.trans hqi)
          simp [hlt]

/-- The state of the assigner behind some parts: of each bank, one more register is used than the last
that is assigned, if the bank has not been given up. -/
structure Counted (s : CCAssignerAAPCS) (parts : List CCAssignment) : Prop where
  gp : s.ngrn = 8 ∨ Top (fun i => ∃ p ∈ parts, p.reg = some i) s.ngrn
  fp : s.nsrn = 8 ∨ Top (fun i => ∃ p ∈ parts, p.reg = some (32 + i)) s.nsrn

theorem Counted.step {s : CCAssignerAAPCS} {out : List CCAssignment} {p : CCAssignment}
    (hp : p.reg = none) (h : Counted s out) :
    Counted (aapcs.assignArg s p).1 (out ++ [(aapcs.assignArg s p).2]) := by
  have hngrn : s.ngrn ≤ 8 := h.gp.elim (fun h => h.le) fun h => h.le
  -- the registers of the other bank are as before
  have hother (off : ℕ) {reg : ℕ} (q : CCAssignment) (hreg : q.reg = some reg) (hne : ∀ i < 8,
    reg ≠ off + i) :
      ∀ i < 8, (∃ q' ∈ out ++ [q], q'.reg = some (off + i)) ↔ ∃ q' ∈ out, q'.reg = some (off + i) := by
    intro i hi
    have hne' : q.reg ≠ some (off + i) := by simpa [hreg] using hne i hi
    simp only [List.mem_append, List.mem_singleton, or_and_right, exists_or, exists_eq_left, hne', or_false]
  have hnone (q : CCAssignment) (hreg : q.reg = none) (off i : ℕ) :
      (∃ q' ∈ out ++ [q], q'.reg = some (off + i)) ↔ ∃ q' ∈ out, q'.reg = some (off + i) := by
    simp [or_and_right, exists_or, hreg]
  rcases aapcs_cases s p with ⟨-, -, heq⟩ | ⟨hlt, heq⟩ | ⟨hlt, heq⟩ | ⟨n, m, hn, hm, heq⟩
  · rw [heq]
    refine ⟨h.gp.imp id fun htop => ?_, h.fp.imp id fun htop => ?_⟩
    · exact htop.congr (by simpa using hother 0 { p with reg := some 8 } rfl (by omega))
    · exact htop.congr (hother 32 { p with reg := some 8 } rfl (by omega))
  · have hle := (le_ngrnFor s p hngrn).1
    have htop : Top (fun i => ∃ p ∈ out, p.reg = some i) s.ngrn := h.gp.resolve_left (by omega)
    rw [heq]
    refine ⟨.inr ⟨hlt, fun i hi => ?_, .inr ?_⟩, h.fp.imp id fun htop => ?_⟩
    · rintro ⟨q, hq, hreg⟩
      rcases List.mem_append.mp hq with hq | hq
      · have := htop.lt i hi ⟨q, hq, hreg⟩
        dsimp only
        omega
      · obtain rfl := List.mem_singleton.mp hq
        obtain rfl := Option.some.inj hreg
        exact Nat.lt_succ_self _
    · exact ⟨_, List.mem_append_right _ List.mem_cons_self, rfl⟩
    · exact htop.congr (hother 32 { p with reg := some (s.ngrnFor p) } rfl (by omega))
  · have htop : Top (fun i => ∃ p ∈ out, p.reg = some (32 + i)) s.nsrn := h.fp.resolve_left (by omega)
    rw [heq]
    refine ⟨h.gp.imp id fun htop => ?_, .inr ⟨hlt, fun i hi => ?_, .inr ?_⟩⟩
    · exact htop.congr (by simpa using hother 0 { p with reg := some (32 + s.nsrn) } rfl (by omega))
    · rintro ⟨q, hq, hreg⟩
      rcases List.mem_append.mp hq with hq | hq
      · exact (htop.lt i hi ⟨q, hq, hreg⟩).trans (Nat.lt_succ_self _)
      · obtain rfl := List.mem_singleton.mp hq
        have : 32 + s.nsrn = 32 + i := Option.some.inj hreg
        dsimp only
        omega
    · exact ⟨_, List.mem_append_right _ List.mem_cons_self, rfl⟩
  · rw [heq]
    refine ⟨?_, ?_⟩
    · rcases hn with rfl | rfl
      · exact h.gp.imp id fun htop => htop.congr fun i _ => by
          simpa using hnone { p with stackOff := alignUp32 s.nsaa p.slot.1 } hp 0 i
      · exact .inl rfl
    · rcases hm with rfl | rfl
      · exact h.fp.imp id fun htop => htop.congr fun i _ =>
          hnone { p with stackOff := alignUp32 s.nsaa p.slot.1 } hp 32 i
      · exact .inl rfl

theorem counted (params : List Arg) : Counted (aapcs.assignParams params).1 (aapcs.assignParams params).2 :=
  assignParams_induction (A := aapcs) ⟨.inr ⟨Nat.zero_le 8, by simp, .inl rfl⟩,
    .inr ⟨Nat.zero_le 8, by simp, .inl rfl⟩⟩
    (fun _ _ _ hp h => h.step hp) params

/-- The number of registers that `va_start` takes for used is right exactly if a bank that was given up
is used up. -/
theorem usedRegs_eq_iff {set : ℕ → Prop} {n count : ℕ} (hn : n = 8 ∨ Top set n) (hcount : Top set count) :
    count = n ↔ (n = 8 → set 7) := by
  constructor
  · rintro rfl rfl
    rcases hcount.last with hzero | hlast
    · cases hzero
    · exact hlast
  · intro h
    rcases hn with rfl | htop
    · have := hcount.lt 7 (by omega) (h rfl)
      have := hcount.le
      omega
    · exact hcount.unique htop

/-- The registers that `gen_func_prolog_and_args` counts. -/
theorem genFuncPrologAndArgs_spec (params : List Arg) : ∃ gp fp,
    genFuncPrologAndArgs params =
      (if AddImm (cursor params).stack then some ⟨gp, fp, (cursor params).stack⟩ else none) ∧
      gp ≤ 8 ∧ fp ≤ 8 ∧
        (gp = (cursor params).gp ↔
        ((cursor params).gp = 8 → ∃ p ∈ (aapcs.assignParams params).2, p.reg = some 7)) ∧
      (fp = (cursor params).fp ↔
        ((cursor params).fp = 8 → ∃ p ∈ (aapcs.assignParams params).2, p.reg = some 39)) ∧
      (cursor params).gp ≤ 8 ∧ (cursor params).fp ≤ 8 := by
  have h := counted params
  set regs := allocatableAfter allocatableRegs argRegs (aapcs.assignParams params).2 &&& argRegs with hregs
  have hgp : Top (fun i => ∃ p ∈ (aapcs.assignParams params).2, p.reg = some i) (usedRegs regs) := by
    refine (usedRegs_top regs).congr fun i hi => ?_
    have harg : argRegs.getLsbD i = true := by
      interval_cases i <;> decide +kernel
    exact (getLsbD_allocatableAfter harg).symm
  have hfp :
    Top (fun i => ∃ p ∈ (aapcs.assignParams params).2, p.reg = some (32 + i)) (usedRegs (regs >>> 32)) := by
    refine (usedRegs_top (regs >>> 32)).congr fun i hi => ?_
    have harg : argRegs.getLsbD (32 + i) = true := by
      interval_cases i <;> decide +kernel
    rw [BitVec.getLsbD_ushiftRight]
    exact (getLsbD_allocatableAfter harg).symm
  refine ⟨usedRegs regs, usedRegs (regs >>> 32), rfl, hgp.le, hfp.le, usedRegs_eq_iff h.gp hgp,
    usedRegs_eq_iff h.fp hfp, ?_, ?_⟩
  · exact h.gp.elim (fun h => h.le) fun h => h.le
  · exact h.fp.elim (fun h => h.le) fun h => h.le

theorem varArgFrameSize_le (locals : ℕ) : varArgFrameSize ≤ finalFrameSize (varArgFrameSize + locals) :=
  (Nat.le_add_right ..).trans (finalFrameSize_ge _)

/-- The save area holds the registers of the convention. -/
theorem area {fp : ℤ} (hfp : 16 ∣ fp) (locals : ℕ) :
    Aapcs.Area (mem fp (finalFrameSize (varArgFrameSize + locals)))
    (fp + regSaveFrameOff + 64) (fp + regSaveFrameOff + (64 + 128))
      (fp + finalFrameSize (varArgFrameSize + locals)) := by
  have hframe := varArgFrameSize_le locals
  have hdvd := finalFrameSize_dvd (varArgFrameSize + locals)
  set frameSize := finalFrameSize (varArgFrameSize + locals)
  have hhigh (off : ℤ) (h : (varArgFrameSize : ℤ) ≤ off) : saves.lookup off = none := by
    rw [List.lookup_eq_none_iff]
    intro x hx
    have hlt : x.1 < varArgFrameSize := by
      revert x
      decide
    exact bne_iff_ne.mpr (by omega)
  refine ⟨⟨fun off => ?_, by omega⟩, fun i hi => ?_, fun i hi => ?_⟩
  · have hoff : fp + frameSize + (off : ℤ) - fp = frameSize + off := by omega
    rw [mem, frameMem, hoff, hhigh _ (by omega)]
    simp
  · have hoff : fp + regSaveFrameOff + 64 - 64 + 8 * (i : ℤ) - fp = (regSaveFrameOff : ℤ) + 8 * i := by omega
    rw [mem, frameMem, hoff]
    interval_cases i <;> rfl
  · have hoff : fp + regSaveFrameOff + (64 + 128) - 128 + 16 * (i : ℤ) - fp =
      (regSaveFrameOff : ℤ) + 64 + 16 * i := by omega
    rw [mem, frameMem, hoff]
    interval_cases i <;> rfl

/-- The offset of a number of used registers. -/
theorem toI32_offs {used : ℕ} (h : used ≤ 8) : toI32 ((2 ^ 32 - (8 - used) * 8) % 2 ^ 32) = 8 * used - 64 ∧
    toI32 ((2 ^ 32 - (8 - used) * 16) % 2 ^ 32) = 16 * used - 128 := by
  interval_cases used <;> decide

theorem offset_of_count {size used : ℕ} (h : used ≤ 8) : Aapcs.Offset size (size * used - size * 8) used := by
  rcases Nat.lt_or_ge used 8 with hlt | hge
  · exact .inl ⟨hlt, rfl⟩
  · obtain rfl : used = 8 := by omega
    exact .inr ⟨rfl, by omega⟩

/-- **On AArch64** variable arguments are read where a caller has put them exactly if no bank of
registers was given up before its last register was used, and the stack area of the parameters ends at a
multiple of 8 that an `add` can encode. -/
theorem continues_iff (params : List Arg) :
    Continues params ↔ UsesUp params ∧ 8 ∣ (cursor params).stack ∧ AddImm (cursor params).stack := by
  obtain ⟨gp, fp, hgen, hgp, hfp, hgp_eq, hfp_eq, hcgp, hcfp⟩ := genFuncPrologAndArgs_spec params
  have hgr (gp' fp' stack : ℕ) (h : gp' ≤ 8) (addr : ℤ) (frameSize : ℕ) :
      (vaStart ⟨gp', fp', stack⟩ addr frameSize).grOffs = 8 * gp' - 64 := (toI32_offs h).1
  have hvr (gp' fp' stack : ℕ) (h : fp' ≤ 8) (addr : ℤ) (frameSize : ℕ) :
      (vaStart ⟨gp', fp', stack⟩ addr frameSize).vrOffs = 16 * fp' - 128 := (toI32_offs h).2
  have hregs (addr : ℤ) (frameSize : ℕ) (hgp' : gp = (cursor params).gp) (hfp' : fp = (cursor params).fp) :
      Aapcs.Registers (vaStart ⟨gp, fp, (cursor params).stack⟩ addr frameSize) (cursor params) := by
    refine ⟨?_, ?_⟩
    · rw [hgr _ _ _ hgp, hgp']
      exact offset_of_count hcgp
    · rw [hvr _ _ _ hfp, hfp']
      exact offset_of_count hcfp
  constructor
  · rintro ⟨info, hinfo, hread⟩
    rw [hgen] at hinfo
    split_ifs at hinfo with himm
    cases hinfo
    have hsmall : finalFrameSize (varArgFrameSize + 0) < 16 * 1024 * 1024 := by decide
    have harea := area (dvd_zero (16 : ℤ)) 0
    have hread := fun args => hread 0 0 args (dvd_zero 16) hsmall
    have hgp' : gp = (cursor params).gp := by
      by_contra hne
      have hgiven : (cursor params).gp = 8 := by
        by_contra h
        exact hne (hgp_eq.mpr fun h' => absurd h' h)
      exact Aapcs.not_agrees_gp harea hgiven (by omega) (hgr gp fp _ hgp _ _)
        (hread _ (by simp [Aapcs.convention]))
    have hfp' : fp = (cursor params).fp := by
      by_contra hne
      have hgiven : (cursor params).fp = 8 := by
        by_contra h
        exact hne (hfp_eq.mpr fun h' => absurd h' h)
      exact Aapcs.not_agrees_fp harea hgiven (by omega) (hvr gp fp _ hfp _ _)
        (hread _ (by simp [Aapcs.convention]))
    exact ⟨⟨hgp_eq.mp hgp', hfp_eq.mp hfp'⟩, Aapcs.dvd_of_agrees (hregs _ _ hgp' hfp') harea rfl hread, himm⟩
  · rintro ⟨⟨hup, hup'⟩, hdvd, himm⟩
    refine ⟨⟨gp, fp, (cursor params).stack⟩, by rw [hgen, if_pos himm],
      fun addr locals args haddr hsmall hvalid => ?_⟩
    have hdenotes : Aapcs.Denotes (addr + finalFrameSize (varArgFrameSize + locals)) _ _ :=
      ⟨hregs addr _ (hgp_eq.mpr hup) (hfp_eq.mpr hup'), rfl, hdvd⟩
    exact Aapcs.agrees hdenotes (area haddr locals) hvalid

end A64

/-- **`va_start` continues where the parameters ended exactly if** on both targets the stack area of the
parameters ends at a multiple of 8 and within reach of the instruction that adds it, and on AArch64 no
bank of registers was given up before its last register was used. -/
theorem vaStart_iff (params : List Arg) : X64.Continues params ∧ A64.Continues params ↔
    (8 ∣ (X64.cursor params).stack ∧ (X64.cursor params).stack + 16 < 2 ^ 31) ∧
      A64.UsesUp params ∧ 8 ∣ (A64.cursor params).stack ∧ A64.AddImm (A64.cursor params).stack := by
  rw [X64.continues_iff, A64.continues_iff]

/-- An `i128`. -/
def int128 : Arg := ⟨[⟨0, 8⟩, ⟨0, 8⟩], true, false, .none, nofun⟩

/-- An `i64`. -/
def int64 : Arg := ⟨[⟨0, 8⟩], false, false, .none, nofun⟩

/-- `(i128, i128, i128, i64, i128, ...)`: the last parameter gives up X7, which `va_start` takes for the
first register that is left. -/
theorem not_continues_int128 : (A64.cursor [int128, int128, int128, int64, int128]).gp = 8 ∧
    A64.genFuncPrologAndArgs [int128, int128, int128, int64, int128] = some ⟨7, 0, 16⟩ ∧
    ¬ (X64.Continues [int128, int128, int128, int64, int128] ∧
      A64.Continues [int128, int128, int128, int64, int128]) := by
  refine ⟨by decide +kernel, by decide +kernel, fun h => ?_⟩
  obtain ⟨p, hp, hreg⟩ := ((A64.continues_iff _).mp h.2).1.1 (by decide +kernel)
  have hnone : ∀ p ∈ (aapcs.assignParams [int128, int128, int128, int64, int128]).2,
    p.reg ≠ some 7 := by decide +kernel
  exact hnone p hp hreg

end Tpde.Target
