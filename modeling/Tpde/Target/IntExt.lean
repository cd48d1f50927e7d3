import Tpde.Compiler.SelectReg
import Tpde.Library.BitFields
import Tpde.Mapper.Relocate

/-!
# Integer extensions

`generate_raw_intext` extends the low bits of a register, on x86-64 with a move, a mask or a pair of
shifts, on AArch64 with a bitfield move, and `into_extended` extends a constant by `util::sext` and
`util::zext`. They agree, but for a width of zero and for the mask on x86-64 that does not fit an
immediate: it goes to a scratch register if the extension is in place, which can be the destination
itself where the caller has not marked that as used (`generateRawIntext_correct_iff`).
-/

namespace Tpde.IntExt

open Compiler

/-- The low `fromBits` bits, extended to `toBits`. -/
def extend (sign : Bool) (fromBits toBits : ℕ) (x : BitVec 64) : BitVec toBits :=
  if sign then (x.setWidth fromBits).signExtend toBits else (x.setWidth fromBits).setWidth toBits

/-! ### Constants -/

/-- `util::zext`. -/
def zext (val : BitVec 64) (bits : ℕ) : Option (BitVec 64) :=
  if 0 < bits ∧ bits < 64 then some (val &&& ((1 : BitVec 64) <<< bits - 1)) else none

/-- `util::sext`. -/
def sext (val : BitVec 64) (bits : ℕ) : Option (BitVec 64) :=
  if 0 < bits ∧ bits < 64 then some (Mapper.sext val bits) else none

/-- A constant: its value and its size in bytes. -/
structure ConstPart where
  data : BitVec 64
  size : ℕ
  deriving DecidableEq

/-- `into_extended`, of a constant. -/
def intoExtended (val : BitVec 64) (sign : Bool) (fromBits toBits : ℕ) : Option ConstPart :=
  if fromBits < toBits ∧ toBits ≤ 64 then
    (if sign then sext val fromBits else zext val fromBits).map fun extended => ⟨extended, (toBits + 7) / 8⟩
  else none

/-! ### x86-64 -/

namespace X64

/-- The instructions of an extension, and the store of a register that is evicted. -/
inductive Inst where
  | movzxr32r8 (dst src : EvictReg)
  | movzxr32r16 (dst src : EvictReg)
  | movsxr32r8 (dst src : EvictReg)
  | movsxr32r16 (dst src : EvictReg)
  | movsxr64r8 (dst src : EvictReg)
  | movsxr64r16 (dst src : EvictReg)
  | movsxr64r32 (dst src : EvictReg)
  | mov32rr (dst src : EvictReg)
  | mov64rr (dst src : EvictReg)
  | mov64ri (dst : EvictReg) (imm : BitVec 64)
  | and32ri (dst : EvictReg) (imm : BitVec 32)
  | and64rr (dst src : EvictReg)
  | shl32ri (dst : EvictReg) (imm : ℕ)
  | sar32ri (dst : EvictReg) (imm : ℕ)
  | shl64ri (dst : EvictReg) (imm : ℕ)
  | sar64ri (dst : EvictReg) (imm : ℕ)
  | spillReg (src : EvictReg)
  deriving DecidableEq

/-- The contents of the registers. -/
abbrev Regs := EvictReg → BitVec 64

/-- Runs an instruction. A write of 32 bits clears the high half, and a shift counts modulo its size. -/
def exec (regs : Regs) (inst : Inst) : Regs :=
  match inst with
  | .movzxr32r8 dst src => Function.update regs dst (((regs src).setWidth 8).setWidth 64)
  | .movzxr32r16 dst src => Function.update regs dst (((regs src).setWidth 16).setWidth 64)
  | .movsxr32r8 dst src => Function.update regs dst ((((regs src).setWidth 8).signExtend 32).setWidth 64)
  | .movsxr32r16 dst src => Function.update regs dst ((((regs src).setWidth 16).signExtend 32).setWidth 64)
  | .movsxr64r8 dst src => Function.update regs dst (((regs src).setWidth 8).signExtend 64)
  | .movsxr64r16 dst src => Function.update regs dst (((regs src).setWidth 16).signExtend 64)
  | .movsxr64r32 dst src => Function.update regs dst (((regs src).setWidth 32).signExtend 64)
  | .mov32rr dst src => Function.update regs dst (((regs src).setWidth 32).setWidth 64)
  | .mov64rr dst src => Function.update regs dst (regs src)
  | .mov64ri dst imm => Function.update regs dst imm
  | .and32ri dst imm => Function.update regs dst (((regs dst).setWidth 32 &&& imm).setWidth 64)
  | .and64rr dst src => Function.update regs dst (regs dst &&& regs src)
  | .shl32ri dst imm => Function.update regs dst (((regs dst).setWidth 32 <<< (imm % 32)).setWidth 64)
  | .sar32ri dst imm =>
    Function.update regs dst ((((regs dst).setWidth 32).sshiftRight (imm % 32)).setWidth 64)
  | .shl64ri dst imm => Function.update regs dst (regs dst <<< (imm % 64))
  | .sar64ri dst imm => Function.update regs dst ((regs dst).sshiftRight (imm % 64))
  | .spillReg _ => regs

def run (regs : Regs) (code : List Inst) : Regs := code.foldl exec regs

@[simp] theorem run_nil (regs : Regs) : run regs [] = regs := rfl

@[simp] theorem run_cons (regs : Regs) (inst : Inst) (code : List Inst) :
    run regs (inst :: code) = run (exec regs inst) code := rfl

@[simp] theorem run_append (regs : Regs) (code code' : List Inst) :
    run regs (code ++ code') = run (run regs code) code' :=
  List.foldl_append

/-- `generate_raw_intext`. -/
def generateRawIntext (s : RegFile) (dst src : EvictReg) (sign : Bool) (fromBits toBits : ℕ) :
    Option (List Inst × RegFile) :=
  if fromBits < toBits ∧ toBits ≤ 64 then
    if !sign then
      match fromBits with
      | 8 => some ([.movzxr32r8 dst src], s)
      | 16 => some ([.movzxr32r16 dst src], s)
      | 32 => some ([.mov32rr dst src], s)
      | _ =>
        if fromBits < 32 then
          some ((if dst ≠ src then [.mov32rr dst src] else []) ++
            [.and32ri dst ((1 : BitVec 32) <<< fromBits - 1)], s)
        else if dst ≠ src then
          some ([.mov64ri dst ((1 : BitVec 64) <<< fromBits - 1), .and64rr dst src], s)
        else
          s.allocGp.bind fun tmp => (tmp.file.reset tmp.reg).map fun s' =>
            ((if tmp.spilled then [.spillReg tmp.reg] else []) ++
              [.mov64ri tmp.reg ((1 : BitVec 64) <<< fromBits - 1), .and64rr dst tmp.reg], s')
    else if toBits ≤ 32 then
      match fromBits with
      | 8 => some ([.movsxr32r8 dst src], s)
      | 16 => some ([.movsxr32r16 dst src], s)
      | _ =>
        some ((if dst ≠ src then [.mov32rr dst src] else []) ++ [.shl32ri dst (32 - fromBits),
          .sar32ri dst (32 - fromBits)], s)
    else
      match fromBits with
      | 8 => some ([.movsxr64r8 dst src], s)
      | 16 => some ([.movsxr64r16 dst src], s)
      | 32 => some ([.movsxr64r32 dst src], s)
      | _ =>
        some ((if dst ≠ src then [.mov64rr dst src] else []) ++ [.shl64ri dst (64 - fromBits),
          .sar64ri dst (64 - fromBits)], s)
  else none

end X64

/-! ### AArch64 -/

namespace A64

/-- `R0` to `R30`. -/
abbrev Reg := Fin 31

/-- The bitfield moves. -/
inductive Inst where
  | sbfxw (dst src : Reg) (lsb width : ℕ)
  | sbfxx (dst src : Reg) (lsb width : ℕ)
  | ubfxw (dst src : Reg) (lsb width : ℕ)
  | ubfxx (dst src : Reg) (lsb width : ℕ)
  deriving DecidableEq

abbrev Regs := Reg → BitVec 64

/-- The field is not empty, and in the register. -/
def Inst.encodable : Inst → Bool
  | .sbfxw _ _ lsb width | .ubfxw _ _ lsb width => 0 < width ∧ lsb + width ≤ 32
  | .sbfxx _ _ lsb width | .ubfxx _ _ lsb width => 0 < width ∧ lsb + width ≤ 64

def exec (regs : Regs) (inst : Inst) : Regs :=
  match inst with
  | .sbfxw dst src lsb width =>
    Function.update regs dst ((((regs src).extractLsb' lsb width).signExtend 32).setWidth 64)
  | .sbfxx dst src lsb width => Function.update regs dst (((regs src).extractLsb' lsb width).signExtend 64)
  | .ubfxw dst src lsb width | .ubfxx dst src lsb width =>
    Function.update regs dst (((regs src).extractLsb' lsb width).setWidth 64)

/-- `generate_raw_intext`. -/
def generateRawIntext (dst src : Reg) (sign : Bool) (fromBits toBits : ℕ) : Option Inst :=
  if fromBits < toBits ∧ toBits ≤ 64 then
    let inst : Inst :=
      if sign then
        if toBits ≤ 32 then .sbfxw dst src 0 fromBits else .sbfxx dst src 0 fromBits
      else
        if toBits ≤ 32 then .ubfxw dst src 0 fromBits else .ubfxx dst src 0 fromBits
    if inst.encodable then some inst else none
  else none

end A64

/-! ### What an extension should do -/

section
variable (sign : Bool) (fromBits toBits : ℕ)

/-- The code leaves the extension in the destination, for all contents of the registers. -/
def X64.Extends (s : RegFile) (dst src : EvictReg) : Prop :=
  ∃ code s', X64.generateRawIntext s dst src sign fromBits toBits = some (code, s') ∧
    ∀ regs : X64.Regs, (X64.run regs code dst).setWidth toBits = extend sign fromBits toBits (regs src)

def A64.Extends (dst src : A64.Reg) : Prop :=
  ∃ inst, A64.generateRawIntext dst src sign fromBits toBits = some inst ∧
    ∀ regs : A64.Regs, (A64.exec regs inst dst).setWidth toBits = extend sign fromBits toBits (regs src)

/-- Each constant is extended. -/
def ConstExtends : Prop :=
  ∀ val, ∃ part, intoExtended val sign fromBits toBits = some part ∧
    part.data.setWidth toBits = extend sign fromBits toBits val

/-- On both targets and of constants. -/
def Correct (s : RegFile) (dst src : EvictReg) (dst' src' : A64.Reg) : Prop :=
  X64.Extends sign fromBits toBits s dst src ∧ A64.Extends sign fromBits toBits dst' src' ∧
    ConstExtends sign fromBits toBits

end

/-! ### What it does -/

/-- The low bits of a sign extension. -/
theorem setWidth_signExtend {n w w' : ℕ} (x : BitVec n) (h : w' ≤ w) :
    (x.signExtend w).setWidth w' = x.signExtend w' := by
  apply BitVec.eq_of_getLsbD_eq
  intro i hi
  rw [BitVec.getLsbD_setWidth, BitVec.getLsbD_signExtend, BitVec.getLsbD_signExtend, decide_eq_true hi,
    decide_eq_true (show i < w by omega), Bool.true_and]

section
variable {sign : Bool} {fromBits toBits : ℕ}

theorem setWidth_zext (hto : toBits ≤ 64) (x : BitVec 64) :
    ((x.setWidth fromBits).setWidth 64).setWidth toBits = extend false fromBits toBits x :=
  BitVec.setWidth_setWidth_of_le _ hto

theorem setWidth_sext {w : ℕ} (hto : toBits ≤ w) (x : BitVec 64) :
    ((x.setWidth fromBits).signExtend w).setWidth toBits = extend true fromBits toBits x :=
  setWidth_signExtend _ hto

namespace X64

variable {s : RegFile} {dst src : EvictReg}

/-- A copy to another register first, and then all but `fromBits` bits cleared. -/
theorem run_and32ri (regs : Regs) (hsmall : fromBits < 32) :
    run regs ((if dst ≠ src then [.mov32rr dst src] else []) ++
      [.and32ri dst ((1 : BitVec 32) <<< fromBits - 1)]) dst =
      ((regs src).setWidth fromBits).setWidth 64 := by
  have hmask (x : BitVec 64) : (x.setWidth 32 &&& ((1 : BitVec 32) <<< fromBits - 1)).setWidth 64 =
    (x.setWidth fromBits).setWidth 64 := by
    rw [BitFields.and_one_shiftLeft_sub_one hsmall, BitVec.setWidth_setWidth_of_le _ hsmall.le]
    apply BitVec.eq_of_getLsbD_eq
    intro i hi
    simp only [BitVec.getLsbD_setWidth]
    by_cases hin : i < fromBits
    · rw [decide_eq_true (show i < 32 by omega), Bool.true_and]
    · simp [hin]
  have hcopy (x : BitVec 64) : ((x.setWidth 32).setWidth 64).setWidth 32 = x.setWidth 32 := by simp
  rw [run_append, run_cons, run_nil, exec, Function.update_self]
  split
  · rw [run_cons, run_nil, exec, Function.update_self, hcopy, hmask]
  case isFalse heq => rw [run_nil, hmask, not_not.mp heq]

/-- Shifts of the lower half leave the sign extension there. -/
theorem run_shift32 (regs : Regs) (hpos : 0 < fromBits) (hsmall : fromBits ≤ 32) :
    run regs ((if dst ≠ src then [.mov32rr dst src] else []) ++ [.shl32ri dst (32 - fromBits),
      .sar32ri dst (32 - fromBits)]) dst =
      (((regs src).setWidth fromBits).signExtend 32).setWidth 64 := by
  have hcopy (x : BitVec 32) : (x.setWidth 64).setWidth 32 = x := by simp
  have hshift (x : BitVec 64) :
      (x.setWidth 32 <<< (32 - fromBits)).sshiftRight (32 - fromBits) =
        (x.setWidth fromBits).signExtend 32 := by
    rw [BitFields.sshiftRight_shiftLeft hpos hsmall, BitVec.setWidth_setWidth_of_le _ hsmall]
  rw [run_append, run_cons, run_cons, run_nil, exec, exec, Function.update_self, Function.update_self,
    Nat.mod_eq_of_lt (show 32 - fromBits < 32 by omega), hcopy, hshift]
  split
  · rw [run_cons, run_nil, exec, Function.update_self, BitVec.setWidth_setWidth_of_le _ (by omega),
      BitVec.setWidth_setWidth_of_le _ hsmall]
  case isFalse heq => rw [run_nil, not_not.mp heq]

/-- Shifts of the whole register. -/
theorem run_shift64 (regs : Regs) (hpos : 0 < fromBits) (hsmall : fromBits ≤ 64) :
    run regs ((if dst ≠ src then [.mov64rr dst src] else []) ++ [.shl64ri dst (64 - fromBits),
      .sar64ri dst (64 - fromBits)]) dst =
      ((regs src).setWidth fromBits).signExtend 64 := by
  rw [run_append, run_cons, run_cons, run_nil, exec, exec, Function.update_self, Function.update_self,
    Nat.mod_eq_of_lt (show 64 - fromBits < 64 by omega), BitFields.sshiftRight_shiftLeft hpos hsmall]
  split
  · rw [run_cons, run_nil, exec, Function.update_self]
  case isFalse heq => rw [run_nil, not_not.mp heq]

/-- The mask in another register. -/
theorem run_and64rr {tmp : EvictReg} {spilled : Bool} (regs : Regs) (hne : tmp ≠ dst)
    (hlarge : fromBits < 64) :
    run regs ((if spilled then [.spillReg tmp] else []) ++
      [.mov64ri tmp ((1 : BitVec 64) <<< fromBits - 1), .and64rr dst tmp]) dst =
      ((regs dst).setWidth fromBits).setWidth 64 := by
  have hspill : run regs (if spilled then [.spillReg tmp] else []) = regs := by cases spilled <;> rfl
  rw [run_append, hspill, run_cons, run_cons, run_nil, exec, exec, Function.update_self, Function.update_self,
    Function.update_of_ne hne.symm, BitFields.and_one_shiftLeft_sub_one hlarge]

/-- A zero extension leaves the low bits of the source. -/
theorem extends_zext (hlt : fromBits < toBits) (hto : toBits ≤ 64)
    (htmp : 32 < fromBits → dst = src → ∃ tmp, s.Picks 0 0 tmp ∧ tmp ≠ dst) :
      Extends false fromBits toBits s dst src := by
  have hfinish {code : List Inst} {s' : RegFile}
    (hgen : generateRawIntext s dst src false fromBits toBits = some (code, s'))
      (hrun : ∀ regs : Regs, run regs code dst = ((regs src).setWidth fromBits).setWidth 64) :
        Extends false fromBits toBits s dst src :=
    ⟨code, s', hgen, fun regs => by rw [hrun, setWidth_zext hto]⟩
  have hgen := generateRawIntext.eq_def s dst src false fromBits toBits
  rw [if_pos ⟨hlt, hto⟩, Bool.not_false, if_pos rfl] at hgen
  split at hgen
  · exact hfinish hgen fun regs => by simp [exec]
  · exact hfinish hgen fun regs => by simp [exec]
  · exact hfinish hgen fun regs => by simp [exec]
  case h_4 h32 =>
    split at hgen
    case isTrue hsmall => exact hfinish hgen fun regs => run_and32ri regs hsmall
    case isFalse hlarge =>
      split at hgen
      case isTrue hne =>
        refine hfinish hgen fun regs => ?_
        rw [run_cons, run_cons, run_nil, exec, exec, Function.update_self, Function.update_self,
          Function.update_of_ne hne.symm,
          BitVec.and_comm, BitFields.and_one_shiftLeft_sub_one (by omega)]
      case isFalse heq =>
        have hne : fromBits ≠ 32 := h32
        obtain rfl := not_not.mp heq
        obtain ⟨tmp, hpick, hne⟩ := htmp (by omega) rfl
        obtain ⟨sel, s', halloc, rfl, hreset⟩ := RegFile.alloc_spec hpick
        rw [RegFile.allocGp_eq, halloc, Option.bind_some, hreset, Option.map_some] at hgen
        exact hfinish hgen fun regs => run_and64rr regs hne (by omega)

/-- A sign extension leaves the low bits and copies of the highest. -/
theorem extends_sext (hpos : 0 < fromBits) (hlt : fromBits < toBits) (hto : toBits ≤ 64) :
    Extends true fromBits toBits s dst src := by
  have hgen := generateRawIntext.eq_def s dst src true fromBits toBits
  rw [if_pos ⟨hlt, hto⟩, Bool.not_true, if_neg Bool.false_ne_true] at hgen
  split at hgen
  case isTrue hhalf =>
    have hfinish {code : List Inst} {s' : RegFile}
      (hgen : generateRawIntext s dst src true fromBits toBits = some (code, s'))
        (hrun : ∀ regs : Regs,
          run regs code dst = (((regs src).setWidth fromBits).signExtend 32).setWidth 64) :
        Extends true fromBits toBits s dst src :=
      ⟨code, s', hgen,
        fun regs => by rw [hrun, BitVec.setWidth_setWidth_of_le _ (by omega), setWidth_sext hhalf]⟩
    split at hgen
    · exact hfinish hgen fun regs => by rw [run_cons, run_nil, exec, Function.update_self]
    · exact hfinish hgen fun regs => by rw [run_cons, run_nil, exec, Function.update_self]
    · exact hfinish hgen fun regs => run_shift32 regs hpos (by omega)
  case isFalse hfull =>
    have hfinish {code : List Inst} {s' : RegFile}
      (hgen : generateRawIntext s dst src true fromBits toBits = some (code, s'))
        (hrun : ∀ regs : Regs, run regs code dst = ((regs src).setWidth fromBits).signExtend 64) :
          Extends true fromBits toBits s dst src :=
      ⟨code, s', hgen, fun regs => by rw [hrun, setWidth_sext hto]⟩
    split at hgen
    · exact hfinish hgen fun regs => by rw [run_cons, run_nil, exec, Function.update_self]
    · exact hfinish hgen fun regs => by rw [run_cons, run_nil, exec, Function.update_self]
    · exact hfinish hgen fun regs => by rw [run_cons, run_nil, exec, Function.update_self]
    · exact hfinish hgen fun regs => run_shift64 regs hpos (by omega)

/-- The mask is lost if there is no other register for it. -/
theorem picks_of_extends (hlarge : 32 < fromBits) (hlt : fromBits < toBits) (hto : toBits ≤ 64)
    (h : Extends false fromBits toBits s dst dst) : ∃ tmp, s.Picks 0 0 tmp ∧ tmp ≠ dst := by
  obtain ⟨code, s', hgen, hrun⟩ := h
  rw [generateRawIntext.eq_def, if_pos ⟨hlt, hto⟩, Bool.not_false, if_pos rfl] at hgen
  split at hgen
  · omega
  · omega
  · omega
  · rw [if_neg (by omega), if_neg (not_not.mpr rfl)] at hgen
    obtain ⟨sel, halloc, hmap⟩ := Option.bind_eq_some_iff.mp hgen
    obtain ⟨s₁, -, heq⟩ := Option.map_eq_some_iff.mp hmap
    cases heq
    refine ⟨sel.reg, RegFile.Picks.of_alloc halloc, ?_⟩
    intro hself
    -- The result is the mask, also for zero.
    have hspill : run (fun _ => 0) (if sel.spilled then [.spillReg dst] else []) = fun _ =>
      0 := by cases sel.spilled <;> rfl
    have hmask := hrun fun _ => 0
    rw [hself, run_append, hspill, run_cons, run_cons, run_nil, exec, exec, Function.update_self,
      Function.update_self, BitVec.and_self,
      BitFields.one_shiftLeft_sub_one (by omega)] at hmask
    have hbit : (BitVec.setWidth toBits (BitVec.ofNat 64 (2 ^ fromBits - 1))).getLsbD 0 =
      (extend false fromBits toBits 0).getLsbD 0 := by
      rw [hmask]
    rw [BitVec.getLsbD_setWidth, BitFields.getLsbD_lowMask fromBits (by omega),
      decide_eq_true (show 0 < toBits by omega),
      decide_eq_true (show 0 < fromBits by omega), extend, if_neg Bool.false_ne_true] at hbit
    simp at hbit

end X64

namespace A64

variable {dst src : Reg}

theorem generateRawIntext_eq (hlt : fromBits < toBits) (hto : toBits ≤ 64) :
    generateRawIntext dst src sign fromBits toBits =
    if 0 < fromBits then
      some (if sign then if toBits ≤ 32 then .sbfxw dst src 0 fromBits else .sbfxx dst src 0 fromBits
        else if toBits ≤ 32 then .ubfxw dst src 0 fromBits else .ubfxx dst src 0 fromBits)
    else none := by
  have hfits : fromBits ≤ 64 := by omega
  rw [generateRawIntext, if_pos ⟨hlt, hto⟩]
  by_cases hhalf : toBits ≤ 32
  · have hfits32 : fromBits ≤ 32 := by omega
    cases sign <;> simp [hhalf, Inst.encodable, hfits32]
  · cases sign <;> simp [hhalf, Inst.encodable, hfits]

/-- A bitfield move does it if the field is not empty. -/
theorem extends_iff (hlt : fromBits < toBits) (hto : toBits ≤ 64) :
    Extends sign fromBits toBits dst src ↔ 0 < fromBits := by
  have hfield (x : BitVec 64) : x.extractLsb' 0 fromBits = x.setWidth fromBits :=
    BitVec.setWidth_eq_extractLsb' (by omega) |>.symm
  constructor
  · rintro ⟨inst, hgen, -⟩
    rw [generateRawIntext_eq hlt hto] at hgen
    by_contra hnot
    rw [if_neg hnot] at hgen
    cases hgen
  · intro hpos
    refine ⟨_, by rw [generateRawIntext_eq hlt hto, if_pos hpos], fun regs => ?_⟩
    cases sign with
    | false =>
      rw [if_neg Bool.false_ne_true]
      split <;> rw [exec, Function.update_self, hfield, setWidth_zext hto]
    | true =>
      rw [if_pos rfl]
      split
      case isTrue hhalf =>
        rw [exec, Function.update_self, hfield, BitVec.setWidth_setWidth_of_le _ hto, setWidth_sext hhalf]
      case isFalse => rw [exec, Function.update_self, hfield, setWidth_sext hto]

end A64

/-- Constants are extended like registers. -/
theorem constExtends_iff (hlt : fromBits < toBits) (hto : toBits ≤ 64) :
    ConstExtends sign fromBits toBits ↔ 0 < fromBits := by
  constructor
  · intro h
    obtain ⟨part, hpart, -⟩ := h 0
    rw [intoExtended, if_pos ⟨hlt, hto⟩] at hpart
    obtain ⟨extended, hext, -⟩ := Option.map_eq_some_iff.mp hpart
    by_contra hnot
    have hbits : ¬ (0 < fromBits ∧ fromBits < 64) := fun hand => hnot hand.1
    rw [sext, zext, if_neg hbits, if_neg hbits, ite_self] at hext
    cases hext
  · intro hpos val
    have hbits : 0 < fromBits ∧ fromBits < 64 := ⟨hpos, by omega⟩
    rw [intoExtended, if_pos ⟨hlt, hto⟩]
    cases sign with
    | false =>
      refine ⟨_, by rw [if_neg Bool.false_ne_true, zext, if_pos hbits, Option.map_some], ?_⟩
      dsimp only
      rw [BitFields.and_one_shiftLeft_sub_one hbits.2, setWidth_zext hto]
    | true =>
      refine ⟨_, by rw [if_pos rfl, sext, if_pos hbits, Option.map_some], ?_⟩
      dsimp only
      rw [Mapper.sext, BitFields.sshiftRight_shiftLeft hpos hbits.2.le, setWidth_sext hto]

/-- **Integers are extended exactly if** the width is not zero and, where the mask needs a register on
x86-64, the register file has another one than the destination to give. -/
theorem generateRawIntext_correct_iff (sign : Bool) {fromBits toBits : ℕ} (hlt : fromBits < toBits)
    (hto : toBits ≤ 64) (s : RegFile)
    (dst src : EvictReg) (dst' src' : A64.Reg) :
    Correct sign fromBits toBits s dst src dst' src' ↔
      0 < fromBits ∧ (sign = false → 32 < fromBits → dst = src → ∃ tmp, s.Picks 0 0 tmp ∧ tmp ≠ dst) := by
  rw [Correct, A64.extends_iff hlt hto, constExtends_iff hlt hto]
  constructor
  · rintro ⟨hext, hpos, -⟩
    refine ⟨hpos, ?_⟩
    rintro rfl hlarge rfl
    exact X64.picks_of_extends hlarge hlt hto hext
  · rintro ⟨hpos, htmp⟩
    refine ⟨?_, hpos, hpos⟩
    cases sign with
    | false => exact X64.extends_zext hlt hto (htmp rfl)
    | true => exact X64.extends_sext hpos hlt hto

/-- The registers before the fourth argument goes to `CX`, which is free then: those of the first three
are reserved, and `AX` is in use. -/
def fourthArg : RegFile where
  used := 1
  lockCounts _ := 0
  assignments reg := { localIdx := BitVec.ofNat 32 reg, part := 0 }
  valAssignment idx := some
    { referencesLeft := 1, pendingFree := false, variableRef := false,
      parts := fun _ => 0xa00 ||| idx.setWidth 16 }
  last _ := 1
  curBlockIdx := 0
  holds reg _ _ := by
    refine ⟨?_, _, rfl, ?_, ?_⟩ <;> revert reg <;> decide
  allocatable := 0xff0b
  clobbered := 0
  unlocked _ _ := rfl

theorem generateRawIntext_correct_iff_byte : Correct true 8 32 fourthArg 1 1 1 1 :=
  (generateRawIntext_correct_iff true (by decide) (by decide) fourthArg 1 1 1 1).mpr ⟨by decide,
    fun h => Bool.noConfusion h⟩

/-- 48 bits are not zero-extended in `CX`, where the mask goes as well. -/
theorem generateRawIntext_fourthArg : ¬ Correct false 48 64 fourthArg 1 1 1 1 := by
  rintro ⟨hext, -⟩
  obtain ⟨tmp, hpick, hne⟩ := X64.picks_of_extends (by decide) (by decide) (by decide) hext
  have hself : fourthArg.Picks 0 0 1 := .inl (RegFile.findFirstFreeExcluding_eq_some_iff.mp rfl)
  exact hne (hpick.unique hself)

end

end Tpde.IntExt
