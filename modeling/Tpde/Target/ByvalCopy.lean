import Tpde.Compiler.SelectReg
import Tpde.Library.MemCopy
import Tpde.Target.ArgAssign

/-!
# Copies of byval arguments

`add_arg_byval` copies the object behind a pointer to its place in the argument area, 8 bytes at a time
and then 4, 2 and 1, with the offset in each load and store. On x86-64 an offset has 32 bits. On AArch64
it is an unsigned immediate of 12 bits, scaled by the size of the access: from there on the code cannot
be encoded (`addArgByval_correct_iff`).
-/

namespace Tpde.ByvalCopy

open Compiler MemCopy Target

/-! ### x86-64 -/

namespace X64

/-- `mov` to and from memory, of the size in bytes, with a displacement of 32 bits. -/
inductive Inst where
  | load (n : ℕ) (dst base : EvictReg) (disp : BitVec 32)
  | store (n : ℕ) (base : EvictReg) (disp : BitVec 32) (src : EvictReg)

/-- `MOV64rm`. -/
abbrev mov64rm := Inst.load 8

/-- `MOV32rm`. -/
abbrev mov32rm := Inst.load 4

/-- `MOVZXr32m16`. -/
abbrev movzxr32m16 := Inst.load 2

/-- `MOVZXr32m8`. -/
abbrev movzxr32m8 := Inst.load 1

/-- `MOV64mr`. -/
abbrev mov64mr := Inst.store 8

/-- `MOV32mr`. -/
abbrev mov32mr := Inst.store 4

/-- `MOV16mr`. -/
abbrev mov16mr := Inst.store 2

/-- `MOV8mr`. -/
abbrev mov8mr := Inst.store 1

/-- The address of a memory operand. -/
def addr (m : Machine EvictReg) (base : EvictReg) (disp : BitVec 32) : ℕ :=
  (m.reg base + disp.signExtend 64).toNat

def exec (m : Machine EvictReg) (inst : Inst) : Machine EvictReg :=
  match inst with
  | .load n dst base disp => m.load dst (addr m base disp) n
  | .store n base disp src => m.store src (addr m base disp) n

def run (m : Machine EvictReg) (code : List Inst) : Machine EvictReg := code.foldl exec m

theorem sp_lt : 4 < 64 := by decide

/-- `FE_SP`. -/
def sp : EvictReg := ⟨4, sp_lt⟩

/-- `off += n` on `i32`, which must not overflow. -/
def addI32 (off n : ℕ) : Option ℕ := if off + n < 2 ^ 31 then some (off + n) else none

section
variable (tmp ptr : EvictReg) (stackOff : ℕ)

/-- `(i32)(cca.stack_off + off)`. -/
def stackDisp (off : ℕ) : BitVec 32 := BitVec.ofNat 32 (stackOff + off)

/-- `if (size >= n)`: emits the copy of `n` bytes and goes on behind them. -/
def ifSize (n : ℕ) (copy : ℕ → List Inst) (rest : ℕ → ℕ → Option (List Inst)) (size off : ℕ) :
    Option (List Inst) :=
  if n ≤ size then (addI32 off n).bind fun off' => (rest (size - n) off').map fun code =>
    copy off ++ code else rest size off

/-- The last byte. -/
def copyByte (size off : ℕ) : Option (List Inst) :=
  some (if 1 ≤ size then
    [movzxr32m8 tmp ptr (BitVec.ofNat 32 off), mov8mr sp (stackDisp stackOff off) tmp] else [])

/-- What is behind the loop. -/
def copyTail : ℕ → ℕ → Option (List Inst) :=
  ifSize 4 (fun off => [mov32rm tmp ptr (BitVec.ofNat 32 off), mov32mr sp (stackDisp stackOff off) tmp])
    (ifSize 2
      (fun off => [movzxr32m16 tmp ptr (BitVec.ofNat 32 off), mov16mr sp (stackDisp stackOff off) tmp])
      (copyByte tmp ptr stackOff))

/-- The loop, `while (size >= 8)`, and what is behind it. -/
def copyLoop (size off : ℕ) : Option (List Inst) :=
  if 8 ≤ size then
    (addI32 off 8).bind fun off' => (copyLoop (size - 8) off').map fun code =>
      [mov64rm tmp ptr (BitVec.ofNat 32 off), mov64mr sp (stackDisp stackOff off) tmp] ++ code
  else copyTail tmp ptr stackOff size off
termination_by size

end

/-- What `add_arg_byval` does once the pointer is in a register: the register that `alloc_gp` spills for
the scratch register; if `set_stack_used` emits the `sub` of the stack pointer; the copy; and the
register file when the scratch register is gone. -/
structure Byval where
  spilled : Option EvictReg
  stackAdjust : Bool
  code : List Inst
  file : RegFile

/-- `add_arg_byval`. -/
def addArgByval (s : RegFile) (ptr : EvictReg) (stackUsed : Bool) (cca : CCAssignment) : Option Byval :=
  s.allocGp.bind fun tmp => (copyLoop tmp.reg ptr cca.stackOff cca.size 0).bind fun code =>
    (tmp.file.reset tmp.reg).map fun file =>
    { spilled := if tmp.spilled then some tmp.reg else none, stackAdjust := !stackUsed, code := code,
      file := file }

/-- The pointer is in a register that is locked, as after `load_to_reg`; the stack pointer is never
allocated. -/
structure Loaded (s : RegFile) (ptr : EvictReg) : Prop where
  locked : s.lockCounts ptr ≠ 0
  ptr_ne : ptr ≠ sp
  reserved : s.allocatable.getLsbD sp = false
  unused : s.used.getLsbD sp = false

/-- The code copies the object to its place in the argument area, which starts at the stack pointer. -/
def Correct (s : RegFile) (ptr : EvictReg) (stackUsed : Bool) (cca : CCAssignment) : Prop :=
  ∃ res, addArgByval s ptr stackUsed cca = some res ∧
    ∀ m : Machine EvictReg, Ready m ((m.reg sp).toNat + cca.stackOff) (m.reg ptr).toNat cca.size →
      Copied m (run m res.code) ((m.reg sp).toNat + cca.stackOff) (m.reg ptr).toNat cca.size

end X64

/-! ### AArch64 -/

namespace A64

/-- `R0` to `R30` and the stack pointer. -/
abbrev Reg := Fin 32

/-- `ldr` and `str` with an unsigned offset, of the size in bytes. -/
inductive Inst where
  | load (n : ℕ) (dst base : Reg) (off : ℕ)
  | store (n : ℕ) (src base : Reg) (off : ℕ)

/-- `LDRxu`. -/
abbrev ldrxu := Inst.load 8

/-- `LDRwu`. -/
abbrev ldrwu := Inst.load 4

/-- `LDRHu`. -/
abbrev ldrhu := Inst.load 2

/-- `LDRBu`. -/
abbrev ldrbu := Inst.load 1

/-- `STRxu`. -/
abbrev strxu := Inst.store 8

/-- `STRwu`. -/
abbrev strwu := Inst.store 4

/-- `STRHu`. -/
abbrev strhu := Inst.store 2

/-- `STRBu`. -/
abbrev strbu := Inst.store 1

/-- The offset is a multiple of the size, and the multiple has 12 bits. -/
def Inst.Encodable : Inst → Prop
  | .load n _ _ off | .store n _ _ off => off % n = 0 ∧ off / n < 2 ^ 12

def addr (m : Machine Reg) (base : Reg) (off : ℕ) : ℕ := (m.reg base + BitVec.ofNat 64 off).toNat

def exec (m : Machine Reg) (inst : Inst) : Machine Reg :=
  match inst with
  | .load n dst base off => m.load dst (addr m base off) n
  | .store n src base off => m.store src (addr m base off) n

def run (m : Machine Reg) (code : List Inst) : Machine Reg := code.foldl exec m

theorem sp_lt : 31 < 32 := by decide

theorem r16_lt : 16 < 32 := by decide

/-- `DA_SP`. -/
def sp : Reg := ⟨31, sp_lt⟩

/-- `AsmReg::R16`, which is not allocatable. -/
def r16 : Reg := ⟨16, r16_lt⟩

section
variable (ptr : Reg) (stackOff size : ℕ)

/-- `cca.stack_off + off` on `u32`. -/
def stackImm (off : ℕ) : ℕ := (stackOff + off) % 2 ^ 32

/-- The loop, from an offset on. -/
def copyLoop (off : ℕ) : List Inst :=
  if off < size then
    if 8 ≤ size - off then [ldrxu r16 ptr off, strxu r16 sp (stackImm stackOff off)] ++ copyLoop (off + 8)
    else if 4 ≤ size - off then
      [ldrwu r16 ptr off, strwu r16 sp (stackImm stackOff off)] ++ copyLoop (off + 4)
    else if 2 ≤ size - off then
      [ldrhu r16 ptr off, strhu r16 sp (stackImm stackOff off)] ++ copyLoop (off + 2)
    else [ldrbu r16 ptr off, strbu r16 sp (stackImm stackOff off)] ++ copyLoop (off + 1)
  else []
termination_by size - off

end

/-- `add_arg_byval`, once the pointer is in a register: if `set_stack_used` leaves room for the `sub` of
the stack pointer, and the copy. -/
def addArgByval (ptr : Reg) (stackUsed : Bool) (cca : CCAssignment) : Bool × List Inst :=
  (!stackUsed, copyLoop ptr cca.stackOff cca.size 0)

/-- The code can be encoded, and copies the object to its place in the argument area. -/
def Correct (ptr : Reg) (stackUsed : Bool) (cca : CCAssignment) : Prop :=
  (∀ inst ∈ (addArgByval ptr stackUsed cca).2, inst.Encodable) ∧
    ∀ m : Machine Reg, Ready m ((m.reg sp).toNat + cca.stackOff) (m.reg ptr).toNat cca.size →
      Copied m (run m (addArgByval ptr stackUsed cca).2) ((m.reg sp).toNat + cca.stackOff)
        (m.reg ptr).toNat cca.size

end A64

/-! ### The code on x86-64 -/

namespace X64

variable {tmp ptr : EvictReg} {stackOff size off : ℕ}

/-- The code for a chunk, which is given by its offset and its size. -/
def chunkCode (tmp ptr : EvictReg) (stackOff : ℕ) (c : ℕ × ℕ) : List Inst :=
  [.load c.2 tmp ptr (BitVec.ofNat 32 c.1), .store c.2 sp (stackDisp stackOff c.1) tmp]

/-- The code for all chunks, if the offset does not overflow behind one of several bytes. -/
def chunksCode (tmp ptr : EvictReg) (stackOff size off : ℕ) : Option (List Inst) :=
  if off + size / 2 * 2 < 2 ^ 31 then
    some ((offsets off (chunks size)).flatMap (chunkCode tmp ptr stackOff))
  else none

/-- A chunk of several bytes in front. -/
theorem chunksCode_step {n : ℕ} (hn : chunk size = n) (hsize : n ≤ size) (heven : n % 2 = 0)
    {rest : ℕ → Option (List Inst)}
    (hrest : off + n < 2 ^ 31 → rest (off + n) = chunksCode tmp ptr stackOff (size - n) (off + n)) :
    ((addI32 off n).bind fun off' => (rest off').map fun code =>
      chunkCode tmp ptr stackOff (off, n) ++ code) =
      chunksCode tmp ptr stackOff size off := by
  have hpos := chunk_pos size
  have hfront : chunks size = n :: chunks (size - n) := by rw [chunks_of_pos (by omega), hn]
  rw [addI32, chunksCode]
  by_cases hlt : off + n < 2 ^ 31
  · rw [if_pos hlt, Option.bind_some, hrest hlt, chunksCode]
    by_cases hfits : off + size / 2 * 2 < 2 ^ 31
    · rw [if_pos (by omega), if_pos hfits, Option.map_some, hfront, offsets, List.flatMap_cons]
    · rw [if_neg (by omega), if_neg hfits, Option.map_none]
  · rw [if_neg hlt, if_neg (by omega), Option.bind_none]

theorem copyByte_eq (hoff : off < 2 ^ 31) (hsize : size < 2) :
    copyByte tmp ptr stackOff size off = chunksCode tmp ptr stackOff size off := by
  have hcode :
    chunksCode tmp ptr stackOff size off =
    some ((offsets off (chunks size)).flatMap (chunkCode tmp ptr stackOff)) :=
    if_pos (by omega)
  rw [hcode, copyByte]
  obtain rfl | rfl : size = 0 ∨ size = 1 := by omega
  · rw [chunks_zero]
    rfl
  · rw [chunks_of_pos Nat.one_pos, show 1 - chunk 1 = 0 from rfl, chunks_zero]
    rfl

theorem copyTail_eq (hoff : off < 2 ^ 31) (hsize : size < 8) :
    copyTail tmp ptr stackOff size off = chunksCode tmp ptr stackOff size off := by
  have hpair {size off : ℕ} (hoff : off < 2 ^ 31) (hsize : size < 4) :
      ifSize 2 (fun off => [movzxr32m16 tmp ptr (BitVec.ofNat 32 off),
        mov16mr sp (stackDisp stackOff off) tmp]) (copyByte tmp ptr stackOff)
        size off = chunksCode tmp ptr stackOff size off := by
    rw [ifSize]
    by_cases h₂ : 2 ≤ size
    · rw [if_pos h₂]
      have hchunk : chunk size = 2 := by rw [chunk, if_neg (by omega), if_neg (by omega), if_pos h₂]
      exact chunksCode_step hchunk h₂ rfl fun hlt => copyByte_eq hlt (by omega)
    · rw [if_neg h₂]
      exact copyByte_eq hoff (by omega)
  rw [copyTail, ifSize]
  by_cases h₄ : 4 ≤ size
  · rw [if_pos h₄]
    have hchunk : chunk size = 4 := by rw [chunk, if_neg (by omega), if_pos h₄]
    exact chunksCode_step hchunk h₄ rfl fun hlt => hpair hlt (by omega)
  · rw [if_neg h₄]
    exact hpair hoff (by omega)

/-- The loop emits the code for all chunks. -/
theorem copyLoop_eq (hoff : off < 2 ^ 31) :
    copyLoop tmp ptr stackOff size off = chunksCode tmp ptr stackOff size off := by
  induction size using Nat.strong_induction_on generalizing off with
  | _ size ih =>
    rw [copyLoop]
    by_cases h₈ : 8 ≤ size
    · rw [if_pos h₈]
      exact chunksCode_step (by rw [chunk, if_pos h₈]) h₈ rfl fun hlt => ih (size - 8) (by omega) hlt
    · rw [if_neg h₈]
      exact copyTail_eq hoff (by omega)

/-- The code copies to where the displacements lead. -/
theorem run_chunkCode (htmp : tmp ≠ ptr) (hsp : tmp ≠ sp) (m : Machine EvictReg) (cs : List (ℕ × ℕ)) :
    run m (cs.flatMap (chunkCode tmp ptr stackOff)) =
      m.copyAll tmp (fun off => addr m sp (stackDisp stackOff off))
        (fun off => addr m ptr (BitVec.ofNat 32 off)) cs := by
  refine Machine.foldl_code {ptr, sp} (by simp [htmp, hsp]) fun c _ m' hm' => ?_
  have hptr : addr m' ptr (BitVec.ofNat 32 c.1) = addr m ptr (BitVec.ofNat 32 c.1) := by
    rw [addr, addr, hm' ptr (by simp)]
  have haddr : addr (m'.load tmp (addr m' ptr (BitVec.ofNat 32 c.1)) c.2) sp (stackDisp stackOff c.1) =
    addr m sp (stackDisp stackOff c.1) := by
    rw [addr, Machine.load_reg hsp.symm, hm' sp (by simp), ← addr]
  rw [chunkCode, List.foldl_cons, List.foldl_cons, List.foldl_nil, exec, exec, haddr, hptr, Machine.copy]

/-- A displacement below 2 GiB is added. -/
theorem addr_eq {m : Machine EvictReg} {base : EvictReg} {disp : ℕ} (hdisp : disp < 2 ^ 31)
    (hfits : (m.reg base).toNat + disp < 2 ^ 64) :
    addr m base (BitVec.ofNat 32 disp) = (m.reg base).toNat + disp := by
  have hpos : (BitVec.ofNat 32 disp).msb = false := by
    rw [BitVec.msb_eq_false_iff_two_mul_lt, BitVec.toNat_ofNat]
    omega
  rw [addr, BitVec.signExtend_eq_setWidth_of_msb_false hpos, BitVec.toNat_add, BitVec.toNat_setWidth,
    BitVec.toNat_ofNat]
  omega

/-- Another one leads out of an argument area at zero. -/
theorem addr_out {m : Machine EvictReg} (hsp : m.reg sp = 0) (hstack : stackOff < 2 ^ 32)
    (hsize : size < 2 ^ 31) (hoff : off < size)
    (hlarge : 2 ^ 31 ≤ stackOff + off) :
    addr m sp (stackDisp stackOff off) < stackOff ∨ stackOff + size ≤ addr m sp (stackDisp stackOff off) := by
  rw [addr, hsp, BitVec.ofNat_eq_ofNat, BitVec.zero_add, BitVec.toNat_signExtend, BitVec.toNat_setWidth,
    stackDisp, BitVec.toNat_ofNat,
    BitVec.msb_eq_decide, BitVec.toNat_ofNat]
  split
  case isTrue hneg =>
    rw [decide_eq_true_eq] at hneg
    omega
  case isFalse hpos =>
    rw [decide_eq_true_eq] at hpos
    omega

/-- The scratch register is neither the pointer nor the stack pointer. -/
theorem Loaded.ne {s : RegFile} (h : Loaded s ptr) (hpick : s.Picks 0 0 tmp) : tmp ≠ ptr ∧ tmp ≠ sp := by
  refine ⟨hpick.ne_of_locked h.locked, ?_⟩
  rintro rfl
  rcases hpick with ⟨hfree, -⟩ | ⟨-, v, hsel⟩
  · exact Bool.false_ne_true (h.reserved.symm.trans hfree.1)
  · exact Bool.false_ne_true (h.unused.symm.trans hsel.evictable.1)

/-- The stack pointer at zero, and the object behind every argument area. -/
def farObject : Machine EvictReg where
  reg r := if r = sp then 0 else 0x200000000
  mem _ := 0
  reads := []
  writes := []

/-- **On x86-64 the object is copied exactly if** there is a scratch register, and the displacements are
below 2 GiB. -/
theorem correct_iff {s : RegFile} {stackUsed : Bool} {cca : CCAssignment} (hload : Loaded s ptr)
    (hsize : cca.size < 2 ^ 32)
    (hstack : cca.stackOff < 2 ^ 32) : Correct s ptr stackUsed cca ↔
      (∃ tmp, s.Picks 0 0 tmp) ∧ cca.size < 2 ^ 31 ∧ Within (fun _ => 2 ^ 31 - 1) cca.stackOff cca.size := by
  constructor
  · rintro ⟨res, hres, hcopied⟩
    obtain ⟨sel, halloc, hbind⟩ := Option.bind_eq_some_iff.mp hres
    obtain ⟨code, hloop, hmap⟩ := Option.bind_eq_some_iff.mp hbind
    obtain ⟨file, -, rfl⟩ := Option.map_eq_some_iff.mp hmap
    have hpick := RegFile.Picks.of_alloc halloc
    obtain ⟨hne, hsp⟩ := hload.ne hpick
    rw [copyLoop_eq (by omega), chunksCode] at hloop
    split at hloop
    case isFalse => cases hloop
    case isTrue hfits =>
      cases hloop
      have hsmall : cca.size < 2 ^ 31 := by omega
      refine ⟨⟨_, hpick⟩, hsmall, (within_iff cca.stackOff 0).mp fun c hc => ?_⟩
      by_contra hlarge
      obtain ⟨hpos, -, hend⟩ := mem_offsets_chunks hc
      have hzero : farObject.reg sp = 0 := by simp [farObject]
      have hfar : (farObject.reg ptr).toNat = 2 ^ 33 := congrArg BitVec.toNat (if_neg hload.ptr_ne)
      have hready :
        Ready farObject ((farObject.reg sp).toNat + cca.stackOff) (farObject.reg ptr).toNat cca.size := by
        rw [hzero, hfar]
        exact ⟨by simp; omega, by omega, .inr (by simp; omega), rfl, rfl⟩
      -- The chunk would be written elsewhere.
      have hwrites := (hcopied farObject hready).writes (addr farObject sp (stackDisp cca.stackOff c.1))
      dsimp only at hwrites
      rw [run_chunkCode hne hsp, Machine.copyAll_writes, hzero] at hwrites
      have hmem :=
        hwrites.mp
          (List.mem_append_right _ (List.mem_flatMap.mpr ⟨c, hc, List.mem_range'_1.mpr ⟨le_rfl, by omega⟩⟩))
      have hout := addr_out hzero hstack hsmall (show c.1 < cca.size by omega) (by omega)
      rw [show (0 : BitVec 64).toNat = 0 from rfl] at hmem
      omega
  · rintro ⟨⟨tmp, hpick⟩, hsmall, hwithin⟩
    have hlimit := (within_iff cca.stackOff 0).mpr hwithin
    obtain ⟨hne, hsp⟩ := hload.ne hpick
    obtain ⟨sel, file, halloc, rfl, hreset⟩ := RegFile.alloc_spec hpick
    refine ⟨_, by
      rw [addArgByval, RegFile.allocGp_eq, halloc, Option.bind_some, copyLoop_eq (by omega), chunksCode,
        if_pos (by omega),
      Option.bind_some, hreset, Option.map_some], fun m hm => ?_⟩
    dsimp only
    have hdst := hm.destination
    have hsrc := hm.source
    have hplaces :
      m.copyAll sel.reg (fun off => addr m sp (stackDisp cca.stackOff off))
      (fun off => addr m ptr (BitVec.ofNat 32 off))
        (offsets 0 (chunks cca.size)) = m.copyAll sel.reg ((m.reg sp).toNat + cca.stackOff + ·)
          ((m.reg ptr).toNat + ·)
          (offsets 0 (chunks cca.size)) := by
      refine Machine.copyAll_congr fun c hc => ?_
      obtain ⟨hpos, -, hend⟩ := mem_offsets_chunks hc
      have hle := hlimit c hc
      exact ⟨by rw [stackDisp, addr_eq (by omega) (by omega), Nat.add_assoc], addr_eq (by omega) (by omega)⟩
    rw [run_chunkCode hne hsp, hplaces]
    exact hm.copied

end X64

/-! ### The code on AArch64 -/

namespace A64

variable {ptr : Reg} {stackOff size off : ℕ}

/-- The code for a chunk, which is given by its offset and its size. -/
def chunkCode (ptr : Reg) (stackOff : ℕ) (c : ℕ × ℕ) : List Inst :=
  [.load c.2 r16 ptr c.1, .store c.2 r16 sp (stackImm stackOff c.1)]

theorem flatMap_front {n : ℕ} (hlt : off < size) (hn : chunk (size - off) = n) :
    (offsets off (chunks (size - off))).flatMap (chunkCode ptr stackOff) =
      chunkCode ptr stackOff (off, n) ++ (offsets (off + n) (chunks (size - (off + n)))).flatMap
        (chunkCode ptr stackOff) := by
  rw [chunks_of_pos (by omega), hn, offsets, List.flatMap_cons, Nat.sub_sub]

/-- The loop emits the code for all chunks. -/
theorem copyLoop_eq : copyLoop ptr stackOff size off = (offsets off (chunks (size - off))).flatMap
    (chunkCode ptr stackOff) := by
  induction off using copyLoop.induct size with
  | case1 off hlt h₈ ih =>
    rw [copyLoop, if_pos hlt, if_pos h₈, flatMap_front hlt (by rw [chunk, if_pos h₈]), ih]
    rfl
  | case2 off hlt h₈ h₄ ih =>
    rw [copyLoop, if_pos hlt, if_neg h₈, if_pos h₄,
      flatMap_front hlt (by rw [chunk, if_neg h₈, if_pos h₄]), ih]
    rfl
  | case3 off hlt h₈ h₄ h₂ ih =>
    rw [copyLoop, if_pos hlt, if_neg h₈, if_neg h₄, if_pos h₂,
      flatMap_front hlt (by rw [chunk, if_neg h₈, if_neg h₄, if_pos h₂]), ih]
    rfl
  | case4 off hlt h₈ h₄ h₂ ih =>
    rw [copyLoop, if_pos hlt, if_neg h₈, if_neg h₄, if_neg h₂,
      flatMap_front hlt (by rw [chunk, if_neg h₈, if_neg h₄, if_neg h₂]), ih]
    rfl
  | case5 off hend =>
    rw [copyLoop, if_neg hend, Nat.sub_eq_zero_of_le (not_lt.mp hend), chunks_zero]
    rfl

/-- A multiple of the size can be encoded up to 4095 of them. -/
theorem encodable_iff {n off : ℕ} (hdvd : n ∣ off) (hpos : 0 < n) : (off % n = 0 ∧ off / n < 2 ^ 12) ↔
    off ≤ 4095 * n := by
  obtain ⟨k, rfl⟩ := hdvd
  rw [Nat.mul_mod_right, Nat.mul_div_cancel_left _ hpos, Nat.mul_comm n k, Nat.mul_le_mul_right_iff hpos]
  omega

/-- The code copies to where the offsets lead. -/
theorem run_chunkCode (hptr : r16 ≠ ptr) (m : Machine Reg) (cs : List (ℕ × ℕ)) :
    run m (cs.flatMap (chunkCode ptr stackOff)) =
      m.copyAll r16 (fun off => addr m sp (stackImm stackOff off)) (fun off => addr m ptr off) cs := by
  have hsp : r16 ≠ sp := by decide
  refine Machine.foldl_code {ptr, sp} (by simp [hptr, hsp]) fun c _ m' hm' => ?_
  have hsrc : addr m' ptr c.1 = addr m ptr c.1 := by rw [addr, addr, hm' ptr (by simp)]
  have hdst : addr (m'.load r16 (addr m' ptr c.1) c.2) sp (stackImm stackOff c.1) =
    addr m sp (stackImm stackOff c.1) := by
    rw [addr, Machine.load_reg hsp.symm, hm' sp (by simp), ← addr]
  rw [chunkCode, List.foldl_cons, List.foldl_cons, List.foldl_nil, exec, exec, hdst, hsrc, Machine.copy]

theorem addr_eq {m : Machine Reg} {base : Reg} {off : ℕ} (hfits : (m.reg base).toNat + off < 2 ^ 64) :
    addr m base off = (m.reg base).toNat + off := by
  rw [addr, BitVec.toNat_add, BitVec.toNat_ofNat]
  omega

/-- Both offsets of each chunk can be encoded exactly if those in the argument area are within the limit. -/
theorem encodable_copyLoop_iff (hstack : stackOff < 2 ^ 32) (hdvd : 8 ∣ stackOff) :
    (∀ inst ∈ copyLoop ptr stackOff size 0, inst.Encodable) ↔ Within (fun n => 4095 * n) stackOff size := by
  have hplace {c : ℕ × ℕ} (hc : c ∈ offsets 0 (chunks size)) : 0 < c.2 ∧ c.2 ≤ 8 ∧ c.2 ∣ c.1 ∧
    c.2 ∣ stackOff + c.1 := by
    obtain ⟨hpos, hle, -⟩ := mem_offsets_chunks hc
    obtain ⟨hoff, height⟩ := dvd_of_mem_offsets (Nat.dvd_zero _) hc
    exact ⟨hpos, hle, hoff, (Nat.dvd_add_right (height.trans hdvd)).mpr hoff⟩
  rw [copyLoop_eq, Nat.sub_zero, List.forall_mem_flatMap, ← Nat.add_zero stackOff, ← within_iff, Nat.add_zero]
  constructor
  · intro h
    have hload {c : ℕ × ℕ} (hc : c ∈ offsets 0 (chunks size)) : c.1 ≤ 4095 * c.2 := by
      obtain ⟨hpos, -, hoff, -⟩ := hplace hc
      exact (encodable_iff hoff hpos).mp (h c hc _ List.mem_cons_self)
    have hstore {c : ℕ × ℕ} (hc : c ∈ offsets 0 (chunks size)) (hwrap : stackOff + c.1 < 2 ^ 32) :
      stackOff + c.1 ≤ 4095 * c.2 := by
      obtain ⟨hpos, -, -, hsum⟩ := hplace hc
      have hencodable := h c hc _ (List.mem_cons_of_mem _ List.mem_cons_self)
      rw [stackImm, Nat.mod_eq_of_lt hwrap] at hencodable
      exact (encodable_iff hsum hpos).mp hencodable
    intro c hc
    obtain ⟨hpos, hle, -, -⟩ := hplace hc
    -- The first chunk is at the offset of the argument, so this is small, and no sum wraps around.
    have hsize : 0 < size := by
      have := (mem_offsets_chunks hc).2.2
      omega
    have hfirst : (0, chunk size) ∈ offsets 0 (chunks size) := by
      rw [chunks_of_pos hsize]
      exact List.mem_cons_self
    have hsmall := hstore hfirst (by simpa using hstack)
    have hfirst_le := (hplace hfirst).2.1
    have hoff := hload hc
    dsimp only at hsmall hfirst_le
    exact hstore hc (by omega)
  · intro h c hc inst hinst
    obtain ⟨hpos, hle, hoff, hsum⟩ := hplace hc
    have hlimit := h c hc
    have hwrap : stackImm stackOff c.1 = stackOff + c.1 := Nat.mod_eq_of_lt (by omega)
    rw [chunkCode, hwrap] at hinst
    simp only [List.mem_cons, List.not_mem_nil, or_false] at hinst
    rcases hinst with rfl | rfl
    · exact (encodable_iff hoff hpos).mpr (by omega)
    · exact (encodable_iff hsum hpos).mpr hlimit

/-- **On AArch64 the object is copied exactly if** the offsets in the argument area are within those
that can be encoded. -/
theorem correct_iff {stackUsed : Bool} {cca : CCAssignment} (hptr : ptr ≠ r16)
    (hstack : cca.stackOff < 2 ^ 32) (hdvd : 8 ∣ cca.stackOff) :
    Correct ptr stackUsed cca ↔ Within (fun n => 4095 * n) cca.stackOff cca.size := by
  have hcopied (m : Machine Reg) (hm : Ready m ((m.reg sp).toNat + cca.stackOff) (m.reg ptr).toNat cca.size)
      (hwithin : Within (fun n => 4095 * n) cca.stackOff cca.size) :
      Copied m (run m (addArgByval ptr stackUsed cca).2) ((m.reg sp).toNat + cca.stackOff)
        (m.reg ptr).toNat cca.size := by
    have hlimit := (within_iff cca.stackOff 0).mpr hwithin
    have hdst := hm.destination
    have hsrc := hm.source
    have hplaces :
      m.copyAll r16 (fun off => addr m sp (stackImm cca.stackOff off)) (fun off => addr m ptr off)
        (offsets 0 (chunks cca.size)) =
          m.copyAll r16 ((m.reg sp).toNat + cca.stackOff + ·) ((m.reg ptr).toNat + ·)
          (offsets 0 (chunks cca.size)) := by
      refine Machine.copyAll_congr fun c hc => ?_
      obtain ⟨hpos, hle, hend⟩ := mem_offsets_chunks hc
      have hlimit := hlimit c hc
      exact ⟨by rw [stackImm, Nat.mod_eq_of_lt (by omega), addr_eq (by omega), Nat.add_assoc],
        addr_eq (by omega)⟩
    rw [addArgByval, copyLoop_eq, Nat.sub_zero, run_chunkCode hptr.symm, hplaces]
    exact hm.copied
  rw [Correct, addArgByval, encodable_copyLoop_iff hstack hdvd]
  exact ⟨fun h => h.1, fun h => ⟨h, fun m hm => hcopied m hm h⟩⟩

end A64

/-! ### Both targets -/

/-- The place that a convention gives to a byval argument is below 4 GiB and aligned to 8 bytes at least. -/
theorem byval_stackOff {p : CCAssignment} (hp : PartOk p) (hb : p.byval = true) (stack : ℕ) :
    alignUp32 stack (if p.align < 8 then 8 else p.align) < 2 ^ 32 ∧
      8 ∣ alignUp32 stack (if p.align < 8 then 8 else p.align) := by
  obtain ⟨k, hk, halign, -⟩ := hp.slot_align
  rw [slot_byval hb] at halign
  dsimp only at halign
  have height : 2 ^ 3 ≤ 2 ^ k := by
    rw [← halign]
    split <;> omega
  have hle : 3 ≤ k := (Nat.pow_le_pow_iff_right (by norm_num)).mp height
  rw [halign]
  refine ⟨?_, (Nat.pow_dvd_pow 2 hle).trans (Dvd.intro_left _ rfl)⟩
  rw [alignUp32_eq _ (Nat.pow_dvd_pow 2 (by omega))]
  exact Nat.mod_lt _ (by norm_num)

/-- **The object is copied exactly if**, on x86-64, there is a scratch register and the displacements
are below 2 GiB, and on AArch64, the offsets in the argument area are at most 4095 times the size of the
access. -/
theorem addArgByval_correct_iff {p : CCAssignment} (hp : PartOk p) (hb : p.byval = true)
    (sysv : CCAssignerSysV) (pcs : CCAssignerAAPCS)
    {s : RegFile} {ptr : EvictReg} (hload : X64.Loaded s ptr) {ptr' : A64.Reg} (hptr : ptr' ≠ A64.r16)
    (stackUsed : Bool) :
    (X64.Correct s ptr stackUsed (sysv.assignArg p).2 ↔ (∃ tmp, s.Picks 0 0 tmp) ∧ p.size < 2 ^ 31 ∧
      Within (fun _ => 2 ^ 31 - 1) (sysv.assignArg p).2.stackOff p.size) ∧
    (A64.Correct ptr' stackUsed (pcs.assignArg p).2 ↔
      Within (fun n => 4095 * n) (pcs.assignArg p).2.stackOff p.size) := by
  have hsize : p.size < 2 ^ 32 := by simpa [hb] using hp.size
  rw [CCAssignerSysV.assignArg, CCAssignerAAPCS.assignArg, if_pos hb, if_pos hb]
  obtain ⟨hlt, -⟩ := byval_stackOff hp hb sysv.stack
  obtain ⟨hlt', hdvd⟩ := byval_stackOff hp hb pcs.nsaa
  exact ⟨X64.correct_iff hload hsize hlt, A64.correct_iff hptr hlt' hdvd⟩

/-- The pointer is in `AX`. -/
def pointerInAx : RegFile where
  used := 1
  lockCounts reg := if reg.val = 0 then 1 else 0
  assignments _ := { localIdx := invalidValLocalIdx, part := 0 }
  valAssignment _ := none
  last _ := 0
  curBlockIdx := 0
  holds := by
    intro reg
    revert reg
    decide
  allocatable := 0xffcf
  clobbered := 0
  unlocked := by
    intro reg
    revert reg
    decide

/-- An object of `size` bytes. -/
def object (size : ℕ) : CCAssignment := { byval := true, align := 8, size := size }

theorem partOk_object {size : ℕ} (h : size < 2 ^ 32) : PartOk (object size) :=
  ⟨rfl, .inr ⟨3, by norm_num, rfl⟩, fun h => Bool.noConfusion h, h⟩

/-- An object of 15 bytes, which takes a copy of each size. -/
theorem addArgByval_correct_iff_tails :
    X64.Correct pointerInAx ⟨0, by decide⟩ false (({} : CCAssignerSysV).assignArg (object 15)).2 ∧
    A64.Correct ⟨0, by decide⟩ false (({} : CCAssignerAAPCS).assignArg (object 15)).2 := by
  have hpart : PartOk (object 15) := partOk_object (by norm_num)
  have hload : X64.Loaded pointerInAx ⟨0, by decide⟩ := ⟨by decide, by decide, rfl, rfl⟩
  have hptr : (⟨0, by decide⟩ : A64.Reg) ≠ A64.r16 := by decide
  obtain ⟨hx64, ha64⟩ := addArgByval_correct_iff hpart rfl {} {} hload hptr false
  have hpick : pointerInAx.Picks 0 0 ⟨1, by decide⟩ :=
    .inl (RegFile.findFirstFreeExcluding_eq_some_iff.mp rfl)
  exact ⟨hx64.mpr ⟨⟨_, hpick⟩, by decide, by constructor <;> decide⟩, ha64.mpr (by constructor <;> decide)⟩

/-- The last byte of 4097 is out of the reach of `strb`. -/
theorem addArgByval_large :
    ¬ A64.Correct ⟨0, by decide⟩ false (({} : CCAssignerAAPCS).assignArg (object 4097)).2 := by
  intro h
  obtain ⟨-, -, -, hone⟩ := (A64.correct_iff (by decide) (by decide) (by decide)).mp h
  exact absurd (hone (by decide)) (by decide)

end Tpde.ByvalCopy
