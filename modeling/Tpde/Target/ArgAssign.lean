import Tpde.Library.Ranges

/-!
# Where arguments go

`CCAssignerSysV` and `CCAssignerAAPCS`, which are handed the parts of the
arguments one after the other and give each a register or a place on the stack.
A part whose `consecutive` is `n` wants to be with the `n` parts behind it: all
of them in registers that follow each other, or all of them on the stack.

Both assigners keep apart what they hand out, as long as the stack area is
smaller than 4 GiB. On AAPCS64 arguments stay whole. On SysV the vector registers
are handed out without a look at `consecutive`, so an argument that needs more of
them than are left is split (`FpFits`).
-/

namespace Tpde.Target

open Ranges

/-! ### The model -/

/-- `CCAssignment`, as far as the assigners use it; no register is `none`. -/
structure CCAssignment where
  reg : Option ℕ := none
  consecutive : ℕ := 0
  sret : Bool := false
  byval : Bool := false
  align : ℕ := 0
  bank : ℕ := 0
  size : ℕ := 0
  stackOff : ℕ := 0

/-- `util::align_up` on `u32`. -/
def alignUp32 (val align : ℕ) : ℕ := (val + (align - 1)) % 2 ^ 32 / align * align

/-- The state of `CCAssignerSysV`. -/
structure CCAssignerSysV where
  gpCnt : ℕ := 0
  xmmCnt : ℕ := 0
  stack : ℕ := 0
  /-- The next parts that must go to the stack. -/
  mustAssignStack : ℕ := 0

namespace CCAssignerSysV

/-- `gp_arg_regs`: DI, SI, DX, CX, R8 and R9. -/
def gpArgRegs : List ℕ := [7, 6, 2, 1, 8, 9]

/-- XMM0 to XMM7. -/
def xmmArgRegs : List ℕ := List.range' 32 8

/-- `assign_arg`. -/
def assignArg (s : CCAssignerSysV) (arg : CCAssignment) : CCAssignerSysV × CCAssignment :=
  if arg.byval then
    let stack := alignUp32 s.stack (if arg.align < 8 then 8 else arg.align)
    ({ s with stack := (stack + arg.size) % 2 ^ 32 }, { arg with stackOff := stack })
  else
    let (s, arg) :=
      if arg.bank = 0 then
        if s.mustAssignStack = 0 ∧ s.gpCnt + arg.consecutive < gpArgRegs.length then
          ({ s with gpCnt := s.gpCnt + 1 }, { arg with reg := gpArgRegs[s.gpCnt]? })
        else
          let stack := alignUp32 s.stack (if arg.align < 8 then 8 else arg.align)
          ({ s with mustAssignStack := arg.consecutive + 1, stack := (stack + 8) % 2 ^ 32 },
            { arg with stackOff := stack })
      else
        if s.mustAssignStack = 0 ∧ s.xmmCnt < 8 then
          ({ s with xmmCnt := s.xmmCnt + 1 }, { arg with reg := some (32 + s.xmmCnt) })
        else
          let size := alignUp32 arg.size 8
          let stack := alignUp32 s.stack size
          ({ s with mustAssignStack := arg.consecutive + 1, stack := (stack + size) % 2 ^ 32 },
            { arg with stackOff := stack })
    ({ s with mustAssignStack := s.mustAssignStack - 1 }, arg)

end CCAssignerSysV

/-- The state of `CCAssignerAAPCS`. -/
structure CCAssignerAAPCS where
  ngrn : ℕ := 0
  nsrn : ℕ := 0
  nsaa : ℕ := 0

/-- `assign_arg`. -/
def CCAssignerAAPCS.assignArg (s : CCAssignerAAPCS) (arg : CCAssignment) : CCAssignerAAPCS × CCAssignment :=
  if arg.byval then
    let nsaa := alignUp32 s.nsaa (if arg.align < 8 then 8 else arg.align)
    ({ s with nsaa := (nsaa + arg.size) % 2 ^ 32 }, { arg with stackOff := nsaa })
  else if arg.sret then (s, { arg with reg := some 8 })
  else if arg.bank = 0 then
    let ngrn := if 8 < arg.align then alignUp32 s.ngrn 2 else s.ngrn
    if ngrn + arg.consecutive < 8 then ({ s with ngrn := ngrn + 1 }, { arg with reg := some ngrn })
    else
      let nsaa := alignUp32 s.nsaa (if arg.align < 8 then 8 else arg.align)
      ({ s with ngrn := 8, nsaa := (nsaa + 8) % 2 ^ 32 }, { arg with stackOff := nsaa })
  else
    if s.nsrn + arg.consecutive < 8 then
      ({ s with nsrn := s.nsrn + 1 }, { arg with reg := some (32 + s.nsrn) })
    else
      let size := alignUp32 arg.size 8
      let nsaa := alignUp32 s.nsaa size
      ({ s with nsrn := 8, nsaa := (nsaa + size) % 2 ^ 32 }, { arg with stackOff := nsaa })

/-! ### Assigners -/

/-- A `CCAssigner`: the start state, `assign_arg` and `get_stack_size()`, with the argument
registers in the order in which they follow each other. -/
structure CCAssigner (σ : Type) where
  init : σ
  assignArg : σ → CCAssignment → σ × CCAssignment
  getStackSize : σ → ℕ
  argRegs : List (List ℕ)

/-- The assigner of x86-64. -/
def sysV : CCAssigner CCAssignerSysV :=
  ⟨{}, CCAssignerSysV.assignArg, (·.stack), [CCAssignerSysV.gpArgRegs, CCAssignerSysV.xmmArgRegs]⟩

/-- The assigner of AArch64; X8 is for the result pointer. -/
def aapcs : CCAssigner CCAssignerAAPCS :=
  ⟨{}, CCAssignerAAPCS.assignArg, (·.nsaa), [List.range 8, List.range' 32 8, [8]]⟩

variable {σ : Type} (A : CCAssigner σ)

/-- The parts of an argument, or of several, one after the other. -/
def CCAssigner.assignAll : σ → List CCAssignment → σ × List CCAssignment
  | s, [] => (s, [])
  | s, p :: ps =>
    let out := A.assignArg s p
    let rest := CCAssigner.assignAll out.1 ps
    (rest.1, out.2 :: rest.2)

/-- The arguments, one after the other, each with its parts. -/
def CCAssigner.assignArgs : σ → List (List CCAssignment) → σ × List (List CCAssignment)
  | s, [] => (s, [])
  | s, ps :: args =>
    let out := A.assignAll s ps
    let rest := CCAssigner.assignArgs out.1 args
    (rest.1, out.2 :: rest.2)

/-! ### What is asked of an assigner -/

namespace CCAssignment

/-- The alignment and the bytes of the stack slot for a part. -/
def slot (p : CCAssignment) : ℕ × ℕ :=
  if p.byval then (if p.align < 8 then 8 else p.align, p.size)
  else if p.bank = 0 then (if p.align < 8 then 8 else p.align, 8)
  else (alignUp32 p.size 8, alignUp32 p.size 8)

/-- The bytes on the stack that an assigned part takes. -/
def range (p : CCAssignment) : ℕ × ℕ := (p.stackOff, p.slot.2)

/-- The parts that are not in a register. -/
def onStack (ps : List CCAssignment) : List CCAssignment := ps.filter fun p => p.reg.isNone

end CCAssignment

open CCAssignment

/-- What callers hand over for an argument: parts of one bank, each marked with the number of parts
behind it, or with 255 if there are more parts than that; only the first part, if it is in general
registers, and a `byval` area ask for more than 8 bytes of alignment. -/
structure Marked (ps : List CCAssignment) : Prop where
  ne : ps ≠ []
  reg : ∀ p ∈ ps, p.reg = none
  bank : ∀ p ∈ ps, ∀ q ∈ ps, p.bank = q.bank
  consecutive : ∀ i p, ps[i]? = some p → p.consecutive = if ps.length ≤ 255 then ps.length - 1 - i else 255
  single : ∀ p ∈ ps, p.byval = true ∨ p.sret = true → ps = [p]
  align : ∀ p ∈ ps, p.align = 0 ∨ ∃ k ≤ 7, p.align = 2 ^ k
  align_tail : ∀ p ∈ ps.tail, p.align ≤ 8
  align_fp : ∀ p ∈ ps, p.byval = false → p.bank ≠ 0 → p.align ≤ 8
  size : ∀ p ∈ ps, if p.byval then p.size < 2 ^ 32 else ∃ k ≤ 7, p.size = 2 ^ k

/-- The parts are in argument registers that follow each other, or all on the stack. -/
def Whole (out : List CCAssignment) : Prop :=
  (∃ rs, out.map (·.reg) = rs.map some ∧ ∃ regs ∈ A.argRegs, rs <:+: regs) ∨ ∀ p ∈ out, p.reg = none

/-- The calling convention interface, for the arguments `args`. -/
structure Honours (args : List (List CCAssignment)) : Prop where
  whole : ∀ out ∈ (A.assignArgs A.init args).2, Whole A out
  reg_once : ((A.assignArgs A.init args).2.flatten.filterMap (·.reg)).Nodup
  apart : ((onStack (A.assignArgs A.init args).2.flatten).map range).Pairwise Apart
  aligned : ∀ p ∈ onStack (A.assignArgs A.init args).2.flatten, p.align = 0 ∨ p.align ∣ p.stackOff
  covered : ∀ p ∈ onStack (A.assignArgs A.init args).2.flatten,
    p.range.1 + p.range.2 ≤ A.getStackSize (A.assignArgs A.init args).1

/-- On SysV, a part gets no register: it is a `byval` area, a part in front of it has none, or there are
too few left. -/
def CCAssignerSysV.ToStack (s : CCAssignerSysV) (p : CCAssignment) : Prop :=
  p.byval = true ∨ s.mustAssignStack ≠ 0 ∨
    if p.bank = 0 then gpArgRegs.length ≤ s.gpCnt + p.consecutive else 8 ≤ s.xmmCnt

/-- On AArch64, a part gets no register. -/
def CCAssignerAAPCS.ToStack (s : CCAssignerAAPCS) (p : CCAssignment) : Prop :=
  p.byval = true ∨ p.sret = false ∧
    if p.bank = 0 then 8 ≤ (if 8 < p.align then alignUp32 s.ngrn 2 else s.ngrn) + p.consecutive
      else 8 ≤ s.nsrn + p.consecutive

/-- The slot of each part that gets no register, behind the stack that there is before it, ends below 4
GiB. -/
def StackFits (toStack : σ → CCAssignment → Prop) : σ → List CCAssignment → Prop
  | _, [] => True
  | s, p :: ps =>
    (toStack s p → alignUp (A.getStackSize s) p.slot.1 + p.slot.2 < 2 ^ 32) ∧
      StackFits toStack (A.assignArg s p).1 ps

/-- On SysV, no argument in vector registers starts when there are some left, but too few. -/
def FpFits : CCAssignerSysV → List (List CCAssignment) → Prop
  | _, [] => True
  | s, ps :: args =>
    ((∀ p ∈ ps, p.byval = false ∧ p.bank ≠ 0) → s.mustAssignStack = 0 → s.xmmCnt < 8 →
      s.xmmCnt + ps.length ≤ 8) ∧ FpFits (sysV.assignAll s ps).1 args

instance decidableFpFits : ∀ (s : CCAssignerSysV) (args : List (List CCAssignment)), Decidable (FpFits s args)
  | _, [] => .isTrue trivial
  | s, ps :: args =>
    have := decidableFpFits (sysV.assignAll s ps).1 args
    inferInstanceAs (Decidable (((∀ p ∈ ps, p.byval = false ∧ p.bank ≠ 0) → s.mustAssignStack = 0 →
      s.xmmCnt < 8 → s.xmmCnt + ps.length ≤ 8) ∧ FpFits (sysV.assignAll s ps).1 args))

instance (s : CCAssignerSysV) (p : CCAssignment) : Decidable (s.ToStack p) :=
  inferInstanceAs (Decidable (_ ∨ _ ∨ ite ..))

instance (s : CCAssignerAAPCS) (p : CCAssignment) : Decidable (s.ToStack p) :=
  inferInstanceAs (Decidable (_ ∨ _ ∧ ite ..))

instance decidableStackFits {σ : Type} (A : CCAssigner σ) (toStack : σ → CCAssignment → Prop)
    [∀ s p, Decidable (toStack s p)] :
    ∀ (s : σ) (ps : List CCAssignment), Decidable (StackFits A toStack s ps)
  | _, [] => .isTrue trivial
  | s, p :: ps =>
    have := decidableStackFits A toStack (A.assignArg s p).1 ps
    inferInstanceAs (Decidable ((toStack s p → alignUp (A.getStackSize s) p.slot.1 + p.slot.2 < 2 ^ 32) ∧
      StackFits A toStack (A.assignArg s p).1 ps))

/-! ### Runs of parts -/

@[simp] theorem assignAll_nil (s : σ) : A.assignAll s [] = (s, []) := rfl

@[simp] theorem assignAll_cons (s : σ) (p : CCAssignment) (ps : List CCAssignment) :
    A.assignAll s (p :: ps) = ((A.assignAll (A.assignArg s p).1 ps).1,
      (A.assignArg s p).2 :: (A.assignAll (A.assignArg s p).1 ps).2) := rfl

@[simp] theorem assignArgs_nil (s : σ) : A.assignArgs s [] = (s, []) := rfl

@[simp] theorem assignArgs_cons (s : σ) (ps : List CCAssignment) (args : List (List CCAssignment)) :
    A.assignArgs s (ps :: args) = ((A.assignArgs (A.assignAll s ps).1 args).1,
      (A.assignAll s ps).2 :: (A.assignArgs (A.assignAll s ps).1 args).2) := rfl

@[simp] theorem assignAll_length (s : σ) (ps : List CCAssignment) :
    (A.assignAll s ps).2.length = ps.length := by
  induction ps generalizing s with
  | nil => rfl
  | cons p ps ih => simp [ih]

theorem assignAll_append (s : σ) (ps qs : List CCAssignment) :
    A.assignAll s (ps ++ qs) = ((A.assignAll (A.assignAll s ps).1 qs).1,
      (A.assignAll s ps).2 ++ (A.assignAll (A.assignAll s ps).1 qs).2) := by
  induction ps generalizing s with
  | nil => rfl
  | cons p ps ih => simp [ih]

/-- Argument by argument, or all parts at once. -/
theorem assignArgs_flatten (s : σ) (args : List (List CCAssignment)) :
    (A.assignArgs s args).1 = (A.assignAll s args.flatten).1 ∧
      (A.assignArgs s args).2.flatten = (A.assignAll s args.flatten).2 := by
  induction args generalizing s with
  | nil => exact ⟨rfl, rfl⟩
  | cons ps args ih =>
    have h := ih (A.assignAll s ps).1
    simp [assignAll_append, h.1, h.2]

variable {A}

/-- Parts that are given the registers of `regs` from the `k`th on, by a step that does so for one. -/
theorem assignAll_regs {R : List ℕ} {I : ℕ → σ → Prop} {Q : CCAssignment → Prop}
    (step : ∀ k s p, I k s → Q p → k + p.consecutive < R.length →
      (A.assignArg s p).2.reg = R[k]? ∧ I (k + 1) (A.assignArg s p).1) :
    ∀ (ps : List CCAssignment) (k : ℕ) (s : σ), I k s → (∀ p ∈ ps, Q p) →
      (∀ i p, ps[i]? = some p → p.consecutive = ps.length - 1 - i) → k + ps.length ≤ R.length →
      (A.assignAll s ps).2.map (·.reg) = ((R.drop k).take ps.length).map some ∧
        I (k + ps.length) (A.assignAll s ps).1 := by
  intro ps
  induction ps with
  | nil => exact fun k s hI _ _ _ => ⟨rfl, hI⟩
  | cons p ps ih =>
    intro k s hI hQ hc hk
    simp only [List.length_cons] at hk hc
    have hp : p.consecutive = ps.length := by simpa using hc 0 p rfl
    obtain ⟨hreg, hI'⟩ := step k s p hI (hQ p List.mem_cons_self) (by omega)
    obtain ⟨hregs, hI''⟩ := ih (k + 1) _ hI' (fun q hq => hQ q (List.mem_cons_of_mem _ hq))
      (fun i q hq => by
        have := hc (i + 1) q hq
        omega) (by omega)
    have hlt : k < R.length := by omega
    refine ⟨?_, by rw [assignAll_cons, List.length_cons, ← Nat.add_assoc, Nat.add_right_comm]; exact hI''⟩
    rw [assignAll_cons, List.map_cons, hregs, hreg, List.length_cons, List.drop_eq_getElem_cons hlt,
      List.take_succ_cons, List.map_cons, List.getElem?_eq_getElem hlt]

/-- Parts that all go to the stack, by a step that does so for one and keeps on if more are to follow. -/
theorem assignAll_stack {J : σ → Prop} {Q : CCAssignment → Prop}
    (step : ∀ s p, J s → Q p → (A.assignArg s p).2.reg = none ∧ (0 < p.consecutive → J (A.assignArg s p).1)) :
    ∀ (ps : List CCAssignment) (s : σ), J s → (∀ p ∈ ps, Q p) →
      (∀ i p, ps[i]? = some p → i + 1 < ps.length → 0 < p.consecutive) →
      ∀ q ∈ (A.assignAll s ps).2, q.reg = none := by
  intro ps
  induction ps with
  | nil => exact fun s _ _ _ => nofun
  | cons p ps ih =>
    intro s hJ hQ hc q hq
    obtain ⟨hreg, hJ'⟩ := step s p hJ (hQ p List.mem_cons_self)
    rw [assignAll_cons] at hq
    rcases List.mem_cons.mp hq with rfl | hq
    · exact hreg
    · cases ps with
      | nil => exact absurd hq (by simp)
      | cons p' ps =>
        have hpos := hc 0 p rfl (by simp)
        exact ih _ (hJ' hpos) (fun q hq => hQ q (List.mem_cons_of_mem _ hq))
          (fun i q hq hi => hc (i + 1) q hq (by simpa using hi)) q hq

/-! ### The stack -/

theorem alignUp32_eq (v : ℕ) {a : ℕ} (ha : a ∣ 2 ^ 32) : alignUp32 v a = alignUp v a % 2 ^ 32 := by
  obtain ⟨c, hc⟩ := ha
  rcases Nat.eq_zero_or_pos a with rfl | hpos
  · simp [alignUp32, alignUp]
  · show (v + (a - 1)) % 2 ^ 32 / a * a = (v + (a - 1)) / a * a % 2 ^ 32
    rw [hc, Nat.mod_mul, Nat.add_mul_div_left _ _ hpos, Nat.div_eq_of_lt (Nat.mod_lt _ hpos), zero_add,
      mul_comm ((v + (a - 1)) / a) a, Nat.mul_mod_mul_left, mul_comm]

/-- A power of two up to 128, rounded up to a multiple of 8. -/
theorem alignUp32_eight {n : ℕ} (h : ∃ k ≤ 7, n = 2 ^ k) : ∃ k ≤ 7, alignUp32 n 8 = 2 ^ k ∧ 8 ≤ 2 ^ k := by
  obtain ⟨k, hk, rfl⟩ := h
  interval_cases k <;>
    first
      | exact ⟨3, by decide⟩
      | exact ⟨4, by decide⟩
      | exact ⟨5, by decide⟩
      | exact ⟨6, by decide⟩
      | exact ⟨7, by decide⟩

/-- The part on its own is as callers hand parts over. -/
structure PartOk (p : CCAssignment) : Prop where
  reg : p.reg = none
  align : p.align = 0 ∨ ∃ k ≤ 7, p.align = 2 ^ k
  align_fp : p.byval = false → p.bank ≠ 0 → p.align ≤ 8
  size : if p.byval then p.size < 2 ^ 32 else ∃ k ≤ 7, p.size = 2 ^ k

theorem Marked.partOk {ps : List CCAssignment} (h : Marked ps) {p : CCAssignment} (hp : p ∈ ps) : PartOk p :=
  ⟨h.reg p hp, h.align p hp, h.align_fp p hp, h.size p hp⟩

theorem max_align {n : ℕ} (h : n = 0 ∨ ∃ k ≤ 7, n = 2 ^ k) :
    ∃ k ≤ 7, (if n < 8 then 8 else n) = 2 ^ k ∧ (n = 0 ∨ n ∣ 2 ^ k) := by
  rcases h with rfl | ⟨k, hk, rfl⟩
  · exact ⟨3, by decide⟩
  · interval_cases k <;>
      first
        | exact ⟨3, by decide⟩
        | exact ⟨4, by decide⟩
        | exact ⟨5, by decide⟩
        | exact ⟨6, by decide⟩
        | exact ⟨7, by decide⟩

/-- The slot's alignment is a power of two that meets what the part asks for. -/
theorem PartOk.slot_align {p : CCAssignment} (h : PartOk p) :
    ∃ k ≤ 7, p.slot.1 = 2 ^ k ∧ (p.align = 0 ∨ p.align ∣ 2 ^ k) := by
  by_cases hb : p.byval = true
  · obtain ⟨k, hk, hmax, hdvd⟩ := max_align h.align
    exact ⟨k, hk, by rw [slot, if_pos hb]; exact hmax, hdvd⟩
  · by_cases hbank : p.bank = 0
    · obtain ⟨k, hk, hmax, hdvd⟩ := max_align h.align
      exact ⟨k, hk, by rw [slot, if_neg hb, if_pos hbank]; exact hmax, hdvd⟩
    · have hsize := h.size
      rw [if_neg hb] at hsize
      obtain ⟨k, hk, heq, hle⟩ := alignUp32_eight hsize
      refine ⟨k, hk, by rw [slot, if_neg hb, if_neg hbank]; exact heq, ?_⟩
      -- a part for vector registers asks for no more than 8
      rcases h.align with h0 | ⟨j, hj, hal⟩
      · exact .inl h0
      · refine .inr (hal ▸ Nat.pow_dvd_pow 2 ?_)
        have := h.align_fp (by simpa using hb) hbank
        rw [hal] at this
        have h8 : 2 ^ j ≤ 2 ^ k := this.trans hle
        exact (Nat.pow_le_pow_iff_right (by decide)).mp h8

theorem PartOk.slot_dvd {p : CCAssignment} (h : PartOk p) : 0 < p.slot.1 ∧ p.slot.1 ∣ 2 ^ 32 := by
  obtain ⟨k, hk, heq, -⟩ := h.slot_align
  rw [heq]
  exact ⟨by positivity, Nat.pow_dvd_pow 2 (by omega)⟩

variable (A) in
/-- A step that gives a register and leaves the stack, or cuts the part's slot off the stack. -/
def StackStep (s : σ) (p : CCAssignment) : Prop :=
  (∃ r, (A.assignArg s p).2 = { p with
    reg := some r } ∧ A.getStackSize (A.assignArg s p).1 = A.getStackSize s) ∨
  (A.assignArg s p).2 = { p with stackOff := alignUp (A.getStackSize s) p.slot.1 % 2 ^ 32 } ∧
    A.getStackSize (A.assignArg s p).1 =
      (alignUp (A.getStackSize s) p.slot.1 % 2 ^ 32 + p.slot.2) % 2 ^ 32

/-- The stack ranges of parts are those of a counter. -/
theorem assignAll_bump (step : ∀ s p, PartOk p → StackStep A s p) :
    ∀ (ps : List CCAssignment) (s : σ), (∀ p ∈ ps, PartOk p) →
      bump (2 ^ 32) (A.getStackSize s) ((onStack (A.assignAll s ps).2).map slot) =
        ((onStack (A.assignAll s ps).2).map range, A.getStackSize (A.assignAll s ps).1) := by
  intro ps
  induction ps with
  | nil => exact fun _ _ => rfl
  | cons p ps ih =>
    intro s h
    have hp := h p List.mem_cons_self
    have ih' := ih (A.assignArg s p).1 fun q hq => h q (List.mem_cons_of_mem _ hq)
    rw [assignAll_cons]
    rcases step s p hp with ⟨r, hout, hsz⟩ | ⟨hout, hsz⟩
    · have hno : onStack ((A.assignArg s p).2 :: (A.assignAll (A.assignArg s p).1 ps).2) =
          onStack (A.assignAll (A.assignArg s p).1 ps).2 := by
        simp [onStack, hout]
      rw [hno, ← hsz]
      exact ih'
    · have hyes : onStack ((A.assignArg s p).2 :: (A.assignAll (A.assignArg s p).1 ps).2) =
          (A.assignArg s p).2 :: onStack (A.assignAll (A.assignArg s p).1 ps).2 := by
        simp [onStack, hout, hp.reg]
      rw [hyes, List.map_cons, List.map_cons,
        show slot (A.assignArg s p).2 = (p.slot.1, p.slot.2) by rw [hout]; rfl]
      simp only [bump]
      rw [← hsz, ih']
      simp [range, hout, slot]

/-- An assigned part on the stack starts where its counter was rounded up to. -/
theorem assignAll_aligned (step : ∀ s p, PartOk p → StackStep A s p) :
    ∀ (ps : List CCAssignment) (s : σ), (∀ p ∈ ps, PartOk p) →
      ∀ q ∈ onStack (A.assignAll s ps).2, q.align = 0 ∨ q.align ∣ q.stackOff := by
  intro ps
  induction ps with
  | nil => exact fun _ _ => nofun
  | cons p ps ih =>
    intro s h q hq
    have hp := h p List.mem_cons_self
    obtain ⟨hmem, hnone⟩ := List.mem_filter.mp hq
    rw [assignAll_cons] at hmem
    rcases List.mem_cons.mp hmem with rfl | hmem
    · rcases step s p hp with ⟨r, hout, -⟩ | ⟨hout, -⟩
      · simp [hout] at hnone
      · obtain ⟨k, hk, heq, hal⟩ := hp.slot_align
        rw [hout]
        rcases hal with h0 | hdvd
        · exact .inl h0
        · refine .inr (hdvd.trans ?_)
          show 2 ^ k ∣ alignUp (A.getStackSize s) p.slot.1 % 2 ^ 32
          rw [heq, Nat.dvd_mod_iff (Nat.pow_dvd_pow 2 (by omega))]
          exact dvd_alignUp _ _
    · exact ih _ (fun q hq => h q (List.mem_cons_of_mem _ hq)) q (List.mem_filter.mpr ⟨hmem, hnone⟩)

theorem assignAll_slot (step : ∀ s p, PartOk p → StackStep A s p) :
    ∀ (ps : List CCAssignment) (s : σ), (∀ p ∈ ps, PartOk p) →
      ∀ q ∈ (A.assignAll s ps).2, ∃ p ∈ ps, q.slot = p.slot := by
  intro ps
  induction ps with
  | nil => exact fun _ _ => nofun
  | cons p ps ih =>
    intro s h q hq
    rw [assignAll_cons] at hq
    rcases List.mem_cons.mp hq with rfl | hq
    · refine ⟨p, List.mem_cons_self, ?_⟩
      rcases step s p (h p List.mem_cons_self) with ⟨r, hout, -⟩ | ⟨hout, -⟩ <;> rw [hout] <;> rfl
    · obtain ⟨p', hp', heq⟩ := ih _ (fun q hq => h q (List.mem_cons_of_mem _ hq)) q hq
      exact ⟨p', List.mem_cons_of_mem _ hp', heq⟩

/-- The slots fit exactly if the counter that they are cut off from does not wrap. -/
theorem stackFits_iff {toStack : σ → CCAssignment → Prop}
    (hstack : ∀ s p, PartOk p → (toStack s p ↔ (A.assignArg s p).2.reg = none))
    (step : ∀ s p, PartOk p → StackStep A s p) : ∀ (ps : List CCAssignment) (s : σ), (∀ p ∈ ps, PartOk p) →
      (StackFits A toStack s ps ↔
        NoWrap (2 ^ 32) (A.getStackSize s) ((onStack (A.assignAll s ps).2).map slot)) := by
  intro ps
  induction ps with
  | nil => exact fun _ _ => Iff.rfl
  | cons p ps ih =>
    intro s h
    have hp := h p List.mem_cons_self
    have ih' := ih (A.assignArg s p).1 fun q hq => h q (List.mem_cons_of_mem _ hq)
    rw [StackFits, hstack s p hp, ih', assignAll_cons]
    rcases step s p hp with ⟨r, hout, hsz⟩ | ⟨hout, hsz⟩
    · have hno : onStack ((A.assignArg s p).2 :: (A.assignAll (A.assignArg s p).1 ps).2) =
          onStack (A.assignAll (A.assignArg s p).1 ps).2 := by
        simp [onStack, hout]
      rw [hno, hsz, hout]
      exact and_iff_right nofun
    · have hyes : onStack ((A.assignArg s p).2 :: (A.assignAll (A.assignArg s p).1 ps).2) =
          (A.assignArg s p).2 :: onStack (A.assignAll (A.assignArg s p).1 ps).2 := by
        simp [onStack, hout, hp.reg]
      have hreg : (A.assignArg s p).2.reg = none := by
        rw [hout]
        exact hp.reg
      rw [hyes, List.map_cons, show slot (A.assignArg s p).2 = (p.slot.1, p.slot.2) by rw [hout]; rfl, NoWrap,
        forall_prop_of_true hreg]
      refine and_congr_right fun hlt => ?_
      have hoff : alignUp (A.getStackSize s) p.slot.1 % 2 ^ 32 = alignUp (A.getStackSize s) p.slot.1 :=
        Nat.mod_eq_of_lt ((Nat.le_add_right ..).trans_lt hlt)
      rw [hsz, hoff, Nat.mod_eq_of_lt hlt]

/-- **The stack ranges** are apart and covered by the stack size exactly if they fit. -/
theorem stack_iff {toStack : σ → CCAssignment → Prop}
    (hstack : ∀ s p, PartOk p → (toStack s p ↔ (A.assignArg s p).2.reg = none))
    (step : ∀ s p, PartOk p → StackStep A s p) (hinit : A.getStackSize A.init = 0)
    {args : List (List CCAssignment)} (h : ∀ ps ∈ args, Marked ps) :
    (((onStack (A.assignArgs A.init args).2.flatten).map range).Pairwise Apart ∧
      ∀ p ∈ onStack (A.assignArgs A.init args).2.flatten,
        p.range.1 + p.range.2 ≤ A.getStackSize (A.assignArgs A.init args).1) ↔
          StackFits A toStack A.init args.flatten := by
  have hok : ∀ p ∈ args.flatten, PartOk p := by
    intro p hp
    obtain ⟨ps, hps, hp⟩ := List.mem_flatten.mp hp
    exact (h ps hps).partOk hp
  obtain ⟨hst, hout⟩ := assignArgs_flatten A A.init args
  have hbump := assignAll_bump step args.flatten A.init hok
  have hslots : ∀ r ∈ (onStack (A.assignAll A.init args.flatten).2).map slot, 0 < r.1 ∧ r.1 ∣ 2 ^ 32 := by
    intro r hr
    obtain ⟨q, hq, rfl⟩ := List.mem_map.mp hr
    obtain ⟨p, hp, heq⟩ := assignAll_slot step _ _ hok q (List.mem_filter.mp hq).1
    rw [heq]
    exact (hok p hp).slot_dvd
  rw [stackFits_iff hstack step args.flatten A.init hok, hst, hout, hinit,
    ← bump_apart_iff (by decide) hslots, ← hinit, hbump]
  simp only [List.forall_mem_map]

theorem stack_aligned (step : ∀ s p, PartOk p → StackStep A s p) {args : List (List CCAssignment)}
    (h : ∀ ps ∈ args, Marked ps) :
    ∀ p ∈ onStack (A.assignArgs A.init args).2.flatten, p.align = 0 ∨ p.align ∣ p.stackOff := by
  rw [(assignArgs_flatten A A.init args).2]
  refine assignAll_aligned step _ _ fun p hp => ?_
  obtain ⟨ps, hps, hp⟩ := List.mem_flatten.mp hp
  exact (h ps hps).partOk hp

/-! ### What a step of SysV does -/

section
variable {s : CCAssignerSysV} {p : CCAssignment}

theorem slot_byval (hb : p.byval = true) : p.slot = (if p.align < 8 then 8 else p.align, p.size) := by
  simp [slot, hb]

theorem slot_gp (hb : p.byval = false) (hbank : p.bank = 0) :
    p.slot = (if p.align < 8 then 8 else p.align, 8) := by
  simp [slot, hb, hbank]

theorem slot_fp (hb : p.byval = false) (hbank : p.bank ≠ 0) :
    p.slot = (alignUp32 p.size 8, alignUp32 p.size 8) := by
  simp [slot, hb, hbank]

theorem sysV_byval (hb : p.byval = true) : sysV.assignArg s p =
    ({ s with stack := (alignUp32 s.stack p.slot.1 + p.slot.2) % 2 ^ 32 },
      { p with stackOff := alignUp32 s.stack p.slot.1 }) := by
  simp [sysV, CCAssignerSysV.assignArg, hb, slot_byval hb]

theorem sysV_gp_reg (hb : p.byval = false) (hbank : p.bank = 0) (hm : s.mustAssignStack = 0)
    (hc : s.gpCnt + p.consecutive < 6) : sysV.assignArg s p =
    ({ s with gpCnt := s.gpCnt + 1, mustAssignStack := 0 },
      { p with reg := CCAssignerSysV.gpArgRegs[s.gpCnt]? }) := by
  simp [sysV, CCAssignerSysV.assignArg, hb, hbank, hm,
    show s.gpCnt + p.consecutive < CCAssignerSysV.gpArgRegs.length from hc]

theorem sysV_gp_stack (hb : p.byval = false) (hbank : p.bank = 0)
    (hc : ¬ (s.mustAssignStack = 0 ∧ s.gpCnt + p.consecutive < 6)) : sysV.assignArg s p =
    ({ s with mustAssignStack := p.consecutive, stack := (alignUp32 s.stack p.slot.1 + p.slot.2) % 2 ^ 32 },
      { p with stackOff := alignUp32 s.stack p.slot.1 }) := by
  have hc' : ¬ (s.mustAssignStack = 0 ∧ s.gpCnt + p.consecutive < CCAssignerSysV.gpArgRegs.length) := hc
  simp only [sysV, CCAssignerSysV.assignArg, hb, hbank, if_neg hc', slot_gp hb hbank]
  simp

theorem sysV_fp_reg (hb : p.byval = false) (hbank : p.bank ≠ 0) (hm : s.mustAssignStack = 0)
    (hc : s.xmmCnt < 8) : sysV.assignArg s p =
    ({ s with xmmCnt := s.xmmCnt + 1, mustAssignStack := 0 }, { p with reg := some (32 + s.xmmCnt) }) := by
  simp [sysV, CCAssignerSysV.assignArg, hb, hbank, hm, hc]

theorem sysV_fp_stack (hb : p.byval = false) (hbank : p.bank ≠ 0)
    (hc : ¬ (s.mustAssignStack = 0 ∧ s.xmmCnt < 8)) : sysV.assignArg s p =
    ({ s with mustAssignStack := p.consecutive, stack := (alignUp32 s.stack p.slot.1 + p.slot.2) % 2 ^ 32 },
      { p with stackOff := alignUp32 s.stack p.slot.1 }) := by
  simp only [sysV, CCAssignerSysV.assignArg, hb, if_neg hbank, if_neg hc, slot_fp hb hbank]
  simp

/-- A step of SysV, whatever the part. -/
theorem sysV_cases (s : CCAssignerSysV) (p : CCAssignment) :
    (∃ k < 6, k = s.gpCnt ∧ sysV.assignArg s p =
      ({ s with gpCnt := s.gpCnt + 1, mustAssignStack := 0 }, { p with
        reg := CCAssignerSysV.gpArgRegs[k]? })) ∨
    (s.xmmCnt < 8 ∧ sysV.assignArg s p =
      ({ s with xmmCnt := s.xmmCnt + 1, mustAssignStack := 0 }, { p with reg := some (32 + s.xmmCnt) })) ∨
    ∃ m, sysV.assignArg s p =
      ({ s with mustAssignStack := m, stack := (alignUp32 s.stack p.slot.1 + p.slot.2) % 2 ^ 32 },
        { p with stackOff := alignUp32 s.stack p.slot.1 }) := by
  rcases Bool.eq_false_or_eq_true p.byval with hb | hb
  · exact .inr (.inr ⟨s.mustAssignStack, sysV_byval hb⟩)
  · by_cases hbank : p.bank = 0
    · by_cases hc : s.mustAssignStack = 0 ∧ s.gpCnt + p.consecutive < 6
      · exact .inl ⟨s.gpCnt, by omega, rfl, sysV_gp_reg hb hbank hc.1 hc.2⟩
      · exact .inr (.inr ⟨_, sysV_gp_stack hb hbank hc⟩)
    · by_cases hc : s.mustAssignStack = 0 ∧ s.xmmCnt < 8
      · exact .inr (.inl ⟨hc.2, sysV_fp_reg hb hbank hc.1 hc.2⟩)
      · exact .inr (.inr ⟨_, sysV_fp_stack hb hbank hc⟩)

end

theorem sysV_stackStep (s : CCAssignerSysV) (p : CCAssignment) (hp : PartOk p) : StackStep sysV s p := by
  rcases sysV_cases s p with ⟨k, hk, -, h⟩ | ⟨-, h⟩ | ⟨m, h⟩
  · refine .inl ⟨CCAssignerSysV.gpArgRegs.get ⟨k, hk⟩, ?_, ?_⟩
    · simp [h, List.getElem?_eq_getElem (show k < CCAssignerSysV.gpArgRegs.length from hk)]
    · rw [h]
      rfl
  · exact .inl ⟨_, by rw [h], by rw [h]; rfl⟩
  · rw [StackStep, h, alignUp32_eq _ hp.slot_dvd.2]
    exact .inr ⟨rfl, rfl⟩

theorem sysV_toStack (s : CCAssignerSysV) (p : CCAssignment) (hp : PartOk p) : s.ToStack p ↔
    (sysV.assignArg s p).2.reg = none := by
  show s.ToStack p ↔ (s.assignArg p).2.reg = none
  rw [CCAssignerSysV.ToStack, CCAssignerSysV.assignArg]
  by_cases hb : p.byval = true
  · rw [if_pos hb]
    exact iff_of_true (.inl hb) hp.reg
  rw [if_neg hb, or_iff_right hb]
  by_cases hbank : p.bank = 0
  · rw [if_pos hbank, if_pos hbank]
    by_cases hregs : s.mustAssignStack = 0 ∧ s.gpCnt + p.consecutive < CCAssignerSysV.gpArgRegs.length
    · rw [if_pos hregs]
      refine iff_of_false (by omega) ?_
      dsimp only
      rw [List.getElem?_eq_none_iff]
      omega
    · rw [if_neg hregs]
      exact iff_of_true (by omega) hp.reg
  · rw [if_neg hbank, if_neg hbank]
    by_cases hregs : s.mustAssignStack = 0 ∧ s.xmmCnt < 8
    · rw [if_pos hregs]
      exact iff_of_false (by omega) nofun
    · rw [if_neg hregs]
      exact iff_of_true (by omega) hp.reg

/-! ### What a step of AAPCS64 does -/

section
variable {s : CCAssignerAAPCS} {p : CCAssignment}

/-- `ngrn` for a part in general registers. -/
def CCAssignerAAPCS.ngrnFor (s : CCAssignerAAPCS) (p : CCAssignment) : ℕ :=
  if 8 < p.align then alignUp32 s.ngrn 2 else s.ngrn

theorem aapcs_byval (hb : p.byval = true) : aapcs.assignArg s p =
    ({ s with nsaa := (alignUp32 s.nsaa p.slot.1 + p.slot.2) % 2 ^ 32 },
      { p with stackOff := alignUp32 s.nsaa p.slot.1 }) := by
  simp [aapcs, CCAssignerAAPCS.assignArg, hb, slot_byval hb]

theorem aapcs_sret (hb : p.byval = false) (hs : p.sret = true) :
    aapcs.assignArg s p = (s, { p with reg := some 8 }) := by
  simp [aapcs, CCAssignerAAPCS.assignArg, hb, hs]

theorem aapcs_gp_reg (hb : p.byval = false) (hs : p.sret = false) (hbank : p.bank = 0)
    (hc : s.ngrnFor p + p.consecutive < 8) : aapcs.assignArg s p =
    ({ s with ngrn := s.ngrnFor p + 1 }, { p with reg := some (s.ngrnFor p) }) := by
  have hc' : (if 8 < p.align then alignUp32 s.ngrn 2 else s.ngrn) + p.consecutive < 8 := hc
  simp only [aapcs, CCAssignerAAPCS.assignArg, hb, hs, hbank, if_pos hc']
  rfl

theorem aapcs_gp_stack (hb : p.byval = false) (hs : p.sret = false) (hbank : p.bank = 0)
    (hc : ¬ s.ngrnFor p + p.consecutive < 8) : aapcs.assignArg s p =
    ({ s with ngrn := 8, nsaa := (alignUp32 s.nsaa p.slot.1 + p.slot.2) % 2 ^ 32 },
      { p with stackOff := alignUp32 s.nsaa p.slot.1 }) := by
  have hc' : ¬ (if 8 < p.align then alignUp32 s.ngrn 2 else s.ngrn) + p.consecutive < 8 := hc
  simp only [aapcs, CCAssignerAAPCS.assignArg, hb, hs, hbank, if_neg hc', slot_gp hb hbank]
  rfl

theorem aapcs_fp_reg (hb : p.byval = false) (hs : p.sret = false) (hbank : p.bank ≠ 0)
    (hc : s.nsrn + p.consecutive < 8) : aapcs.assignArg s p =
    ({ s with nsrn := s.nsrn + 1 }, { p with reg := some (32 + s.nsrn) }) := by
  simp [aapcs, CCAssignerAAPCS.assignArg, hb, hs, hbank, hc]

theorem aapcs_fp_stack (hb : p.byval = false) (hs : p.sret = false) (hbank : p.bank ≠ 0)
    (hc : ¬ s.nsrn + p.consecutive < 8) : aapcs.assignArg s p =
    ({ s with nsrn := 8, nsaa := (alignUp32 s.nsaa p.slot.1 + p.slot.2) % 2 ^ 32 },
      { p with stackOff := alignUp32 s.nsaa p.slot.1 }) := by
  simp [aapcs, CCAssignerAAPCS.assignArg, hb, hs, hbank, hc, slot_fp hb hbank]

/-- A step of AAPCS64, whatever the part. -/
theorem aapcs_cases (s : CCAssignerAAPCS) (p : CCAssignment) :
    (p.byval = false ∧ p.sret = true ∧ aapcs.assignArg s p = (s, { p with reg := some 8 })) ∨
    (s.ngrnFor p < 8 ∧ aapcs.assignArg s p =
      ({ s with ngrn := s.ngrnFor p + 1 }, { p with reg := some (s.ngrnFor p) })) ∨
    (s.nsrn < 8 ∧ aapcs.assignArg s p = ({ s with nsrn := s.nsrn + 1 }, { p with
      reg := some (32 + s.nsrn) })) ∨
    ∃ n m, (n = s.ngrn ∨ n = 8) ∧ (m = s.nsrn ∨ m = 8) ∧ aapcs.assignArg s p =
      ({ ngrn := n, nsrn := m, nsaa := (alignUp32 s.nsaa p.slot.1 + p.slot.2) % 2 ^ 32 },
        { p with stackOff := alignUp32 s.nsaa p.slot.1 }) := by
  rcases Bool.eq_false_or_eq_true p.byval with hb | hb
  · exact .inr (.inr (.inr ⟨s.ngrn, s.nsrn, .inl rfl, .inl rfl, aapcs_byval hb⟩))
  · rcases Bool.eq_false_or_eq_true p.sret with hs | hs
    · exact .inl ⟨hb, hs, aapcs_sret hb hs⟩
    · by_cases hbank : p.bank = 0
      · by_cases hc : s.ngrnFor p + p.consecutive < 8
        · exact .inr (.inl ⟨by omega, aapcs_gp_reg hb hs hbank hc⟩)
        · exact .inr (.inr (.inr ⟨8, s.nsrn, .inr rfl, .inl rfl, aapcs_gp_stack hb hs hbank hc⟩))
      · by_cases hc : s.nsrn + p.consecutive < 8
        · exact .inr (.inr (.inl ⟨by omega, aapcs_fp_reg hb hs hbank hc⟩))
        · exact .inr (.inr (.inr ⟨s.ngrn, 8, .inl rfl, .inr rfl, aapcs_fp_stack hb hs hbank hc⟩))

end

theorem aapcs_stackStep (s : CCAssignerAAPCS) (p : CCAssignment) (hp : PartOk p) : StackStep aapcs s p := by
  rcases aapcs_cases s p with ⟨-, -, h⟩ | ⟨-, h⟩ | ⟨-, h⟩ | ⟨n, m, -, -, h⟩
  · exact .inl ⟨_, by rw [h], by rw [h]⟩
  · exact .inl ⟨_, by rw [h], by rw [h]; rfl⟩
  · exact .inl ⟨_, by rw [h], by rw [h]; rfl⟩
  · rw [StackStep, h, alignUp32_eq _ hp.slot_dvd.2]
    exact .inr ⟨rfl, rfl⟩

theorem aapcs_toStack (s : CCAssignerAAPCS) (p : CCAssignment) (hp : PartOk p) : s.ToStack p ↔
    (aapcs.assignArg s p).2.reg = none := by
  show s.ToStack p ↔ (s.assignArg p).2.reg = none
  rw [CCAssignerAAPCS.ToStack, CCAssignerAAPCS.assignArg]
  by_cases hb : p.byval = true
  · rw [if_pos hb]
    exact iff_of_true (.inl hb) hp.reg
  rw [if_neg hb, or_iff_right hb]
  by_cases hs : p.sret = true
  · rw [if_pos hs]
    exact iff_of_false (fun h => Bool.false_ne_true (h.1.symm.trans hs)) nofun
  rw [if_neg hs, and_iff_right (Bool.eq_false_of_not_eq_true hs)]
  by_cases hbank : p.bank = 0
  · rw [if_pos hbank, if_pos hbank]
    dsimp only
    generalize (if 8 < p.align then alignUp32 s.ngrn 2 else s.ngrn) = n
    split
    · rename_i hregs
      exact iff_of_false (not_le.mpr hregs) nofun
    · rename_i hregs
      exact iff_of_true (not_lt.mp hregs) hp.reg
  · rw [if_neg hbank, if_neg hbank]
    split
    · rename_i hregs
      exact iff_of_false (not_le.mpr hregs) nofun
    · rename_i hregs
      exact iff_of_true (not_lt.mp hregs) hp.reg

/-! ### No register twice -/

/-- Registers given to some parts, all from those that are left for the parts to come, and different. -/
theorem assignAll_once {L : List CCAssignment → σ → Set ℕ} {I : σ → List CCAssignment → Prop}
    (step : ∀ s p ps, I s (p :: ps) → I (A.assignArg s p).1 ps ∧
      L ps (A.assignArg s p).1 ⊆ L (p :: ps) s ∧
      ∀ r, (A.assignArg s p).2.reg = some r → r ∈ L (p :: ps) s ∧ r ∉ L ps (A.assignArg s p).1) :
    ∀ (ps : List CCAssignment) (s : σ), I s ps → ((A.assignAll s ps).2.filterMap (·.reg)).Nodup ∧
      ∀ r ∈ (A.assignAll s ps).2.filterMap (·.reg), r ∈ L ps s := by
  intro ps
  induction ps with
  | nil => exact fun _ _ => ⟨List.nodup_nil, nofun⟩
  | cons p ps ih =>
    intro s hI
    obtain ⟨hI', hsub, hreg⟩ := step s p ps hI
    obtain ⟨hnd, hleft⟩ := ih (A.assignArg s p).1 hI'
    rw [assignAll_cons]
    cases hr : (A.assignArg s p).2.reg with
    | none =>
      rw [List.filterMap_cons_none hr]
      exact ⟨hnd, fun r h => hsub (hleft r h)⟩
    | some r =>
      obtain ⟨hin, hout⟩ := hreg r hr
      rw [List.filterMap_cons_some hr]
      refine ⟨List.nodup_cons.mpr ⟨fun h => hout (hleft r h), hnd⟩, fun q hq => ?_⟩
      rcases List.mem_cons.mp hq with rfl | hq
      · exact hin
      · exact hsub (hleft q hq)

/-- The registers that SysV has not given away. -/
def CCAssignerSysV.left (s : CCAssignerSysV) : Set ℕ :=
  {r | (∃ k < 6, s.gpCnt ≤ k ∧ CCAssignerSysV.gpArgRegs[k]? = some r) ∨ ∃ k < 8, s.xmmCnt ≤ k ∧ r = 32 + k}

theorem gpArgRegs_lt {k r : ℕ} (h : CCAssignerSysV.gpArgRegs[k]? = some r) : r < 32 := by
  have : ∀ r ∈ CCAssignerSysV.gpArgRegs, r < 32 := by decide
  exact this r (List.mem_of_getElem? h)

theorem gpArgRegs_inj {j k r : ℕ} (hj : CCAssignerSysV.gpArgRegs[j]? = some r)
    (hk : CCAssignerSysV.gpArgRegs[k]? = some r) : j = k := by
  have hnd : CCAssignerSysV.gpArgRegs.Nodup := by decide
  obtain ⟨hj', rfl⟩ := List.getElem?_eq_some_iff.mp hj
  obtain ⟨hk', he⟩ := List.getElem?_eq_some_iff.mp hk
  exact ((List.Nodup.getElem_inj_iff hnd).mp he).symm

theorem sysV_once (s : CCAssignerSysV) (p : CCAssignment) (hp : p.reg = none) :
    (sysV.assignArg s p).1.left ⊆ s.left ∧
      ∀ r, (sysV.assignArg s p).2.reg = some r → r ∈ s.left ∧ r ∉ (sysV.assignArg s p).1.left := by
  rcases sysV_cases s p with ⟨k, hk, rfl, h⟩ | ⟨hx, h⟩ | ⟨m, h⟩ <;> rw [h]
  · refine ⟨?_, fun r hr => ⟨.inl ⟨_, hk, le_rfl, hr⟩, ?_⟩⟩
    · rintro r (⟨k, hk, hle, hr⟩ | hr)
      · exact .inl ⟨k, hk, by simp only at hle; omega, hr⟩
      · exact .inr hr
    · rintro (⟨k, -, hle, hr'⟩ | ⟨k, -, -, rfl⟩)
      · have := gpArgRegs_inj hr' hr
        simp only at hle
        omega
      · have := gpArgRegs_lt hr
        omega
  · refine ⟨?_, fun r hr => ?_⟩
    · rintro r (hr | ⟨k, hk, hle, hr⟩)
      · exact .inl hr
      · exact .inr ⟨k, hk, by simp only at hle; omega, hr⟩
    · obtain rfl : 32 + s.xmmCnt = r := by simpa using hr
      refine ⟨.inr ⟨_, hx, le_rfl, rfl⟩, ?_⟩
      rintro (⟨k, -, -, hr'⟩ | ⟨k, -, hle, he⟩)
      · have := gpArgRegs_lt hr'
        omega
      · simp only at hle
        omega
  · exact ⟨fun r hr => hr, fun r hr => by simp [hp] at hr⟩

/-- The registers that AAPCS64 has not given away; X8 is left if the parts to come ask for it. -/
def CCAssignerAAPCS.left (ps : List CCAssignment) (s : CCAssignerAAPCS) : Set ℕ :=
  {r | (s.ngrn ≤ r ∧ r < 8) ∨ (∃ k < 8, s.nsrn ≤ k ∧ r = 32 + k) ∨
    (r = 8 ∧ ∃ p ∈ ps, p.byval = false ∧ p.sret = true)}

theorem le_ngrnFor (s : CCAssignerAAPCS) (p : CCAssignment) (h : s.ngrn ≤ 8) :
    s.ngrn ≤ s.ngrnFor p ∧ s.ngrnFor p ≤ 8 := by
  rw [CCAssignerAAPCS.ngrnFor]
  split
  · rw [alignUp32_eq _ (by decide)]
    have hle : alignUp s.ngrn 2 ≤ 8 := alignUp_le_of_dvd (by decide) h (by decide)
    rw [Nat.mod_eq_of_lt (by omega)]
    exact ⟨le_alignUp _ (by decide), hle⟩
  · exact ⟨le_rfl, h⟩

/-- The counters are in range, the parts have no register yet, and at most one asks for X8. -/
structure CCAssignerAAPCS.Once (s : CCAssignerAAPCS) (ps : List CCAssignment) : Prop where
  ngrn : s.ngrn ≤ 8
  reg : ∀ p ∈ ps, p.reg = none
  sret : ps.Pairwise fun p q => ¬ (p.sret = true ∧ q.sret = true)

theorem aapcs_once (s : CCAssignerAAPCS) (p : CCAssignment) (ps : List CCAssignment) (hI : s.Once (p :: ps)) :
    (aapcs.assignArg s p).1.Once ps ∧
      CCAssignerAAPCS.left ps (aapcs.assignArg s p).1 ⊆ CCAssignerAAPCS.left (p :: ps) s ∧
      ∀ r, (aapcs.assignArg s p).2.reg = some r →
        r ∈ CCAssignerAAPCS.left (p :: ps) s ∧ r ∉ CCAssignerAAPCS.left ps (aapcs.assignArg s p).1 := by
  have hreg : ∀ q ∈ ps, q.reg = none := fun q hq => hI.reg q (List.mem_cons_of_mem _ hq)
  obtain ⟨hhead, htail⟩ := List.pairwise_cons.mp hI.sret
  obtain ⟨hle, hle'⟩ := le_ngrnFor s p hI.ngrn
  have hmore : ∀ {r : ℕ}, (r = 8 ∧ ∃ q ∈ ps, q.byval = false ∧ q.sret = true) →
      r = 8 ∧ ∃ q ∈ p :: ps, q.byval = false ∧ q.sret = true := by
    rintro r ⟨rfl, q, hq, hq'⟩
    exact ⟨rfl, q, List.mem_cons_of_mem _ hq, hq'⟩
  rcases aapcs_cases s p with ⟨hb, hs, h⟩ | ⟨hn, h⟩ | ⟨hn, h⟩ | ⟨n, m, hn, hm, h⟩ <;> rw [h]
  · refine ⟨⟨hI.ngrn, hreg, htail⟩, fun r hr => hr.imp_right (Or.imp_right hmore), fun r hr => ?_⟩
    obtain rfl : 8 = r := by simpa using hr
    refine ⟨.inr (.inr ⟨rfl, p, List.mem_cons_self, hb, hs⟩), ?_⟩
    rintro (⟨-, hlt⟩ | ⟨k, -, -, he⟩ | ⟨-, q, hq, -, hs'⟩)
    · omega
    · omega
    · exact hhead q hq ⟨hs, hs'⟩
  · refine ⟨⟨by simp only; omega, hreg, htail⟩, ?_, fun r hr => ?_⟩
    · rintro r (⟨h₁, h₂⟩ | hr)
      · exact .inl ⟨by simp only at h₁; omega, h₂⟩
      · exact .inr (hr.imp_right hmore)
    · obtain rfl : s.ngrnFor p = r := by simpa using hr
      refine ⟨.inl ⟨hle, hn⟩, ?_⟩
      rintro (⟨h₁, -⟩ | ⟨k, -, -, he⟩ | ⟨he, -⟩)
      · simp only at h₁
        omega
      · omega
      · omega
  · refine ⟨⟨hI.ngrn, hreg, htail⟩, ?_, fun r hr => ?_⟩
    · rintro r (hr | ⟨k, hk, hle, he⟩ | hr)
      · exact .inl hr
      · exact .inr (.inl ⟨k, hk, by simp only at hle; omega, he⟩)
      · exact .inr (.inr (hmore hr))
    · obtain rfl : 32 + s.nsrn = r := by simpa using hr
      refine ⟨.inr (.inl ⟨_, hn, le_rfl, rfl⟩), ?_⟩
      rintro (⟨-, hlt⟩ | ⟨k, -, hle, he⟩ | ⟨he, -⟩)
      · omega
      · simp only at hle
        omega
      · omega
  · have hng := hI.ngrn
    refine ⟨⟨by simp only; omega, hreg, htail⟩, ?_, fun r hr => ?_⟩
    · rintro r (⟨h₁, h₂⟩ | ⟨k, hk, hle, he⟩ | hr)
      · exact .inl ⟨by simp only at h₁; omega, h₂⟩
      · exact .inr (.inl ⟨k, hk, by simp only at hle; omega, he⟩)
      · exact .inr (.inr (hmore hr))
    · exact absurd hr (by simp [hI.reg p List.mem_cons_self])

/-! ### Arguments stay whole -/

theorem Marked.tail_consecutive {ps : List CCAssignment} (h : Marked ps) :
    ∀ i p, ps[i]? = some p → i + 1 < ps.length → 0 < p.consecutive := by
  intro i p hp hi
  rw [h.consecutive i p hp]
  split <;> omega

theorem Marked.consecutive_eq {ps : List CCAssignment} (h : Marked ps) (hlen : ps.length ≤ 255) :
    ∀ i p, ps[i]? = some p → p.consecutive = ps.length - 1 - i := by
  intro i p hp
  rw [h.consecutive i p hp, if_pos hlen]

theorem Marked.tail_consecutive_eq {p : CCAssignment} {ps : List CCAssignment} (h : Marked (p :: ps))
    (hlen : ps.length ≤ 254) : ∀ i q, ps[i]? = some q → q.consecutive = ps.length - 1 - i := by
  intro i q hq
  have := h.consecutive_eq (by rw [List.length_cons]; omega) (i + 1) q hq
  simp only [List.length_cons] at this
  omega

/-- The first part goes to the stack, and then all others do. -/
theorem whole_stack {J : σ → Prop} {Q : CCAssignment → Prop}
    (step : ∀ s p, J s → Q p → (A.assignArg s p).2.reg = p.reg ∧ (0 < p.consecutive → J (A.assignArg s p).1))
    {s : σ} {p : CCAssignment} {ps : List CCAssignment} (h : Marked (p :: ps))
    (hp : (A.assignArg s p).2.reg = none) (hJ : 0 < p.consecutive → J (A.assignArg s p).1)
    (hQ : ∀ q ∈ ps, Q q) :
    ∀ q ∈ (A.assignAll s (p :: ps)).2, q.reg = none := by
  intro q hq
  rw [assignAll_cons] at hq
  rcases List.mem_cons.mp hq with rfl | hq
  · exact hp
  · cases ps with
    | nil => exact absurd hq (by simp)
    | cons p' ps =>
      have hpos := h.tail_consecutive 0 p rfl (by simp)
      refine assignAll_stack (J := J) (Q := fun q => Q q ∧ q.reg = none) (fun s q hJ hq => ?_) (p' :: ps) _
        (hJ hpos) (fun q hq => ⟨hQ q hq, h.reg q (List.mem_cons_of_mem _ hq)⟩) (fun i q hq hi => ?_) q hq
      · obtain ⟨h₁, h₂⟩ := step s q hJ hq.1
        exact ⟨h₁.trans hq.2, h₂⟩
      · exact h.tail_consecutive (i + 1) q hq (by simpa using hi)

/-- Registers `k` and on, as many as there are parts. -/
theorem whole_regs {out : List CCAssignment} {regs : List ℕ} (hregs : regs ∈ A.argRegs) {k n : ℕ}
    (h : out.map (·.reg) = ((regs.drop k).take n).map some) : Whole A out :=
  .inl ⟨_, h, regs, hregs, regs.take k, (regs.drop k).drop n, by simp⟩

/-- An argument on AAPCS64. -/
theorem aapcs_whole (s : CCAssignerAAPCS) {ps : List CCAssignment} (h : Marked ps) :
    Whole aapcs (aapcs.assignAll s ps).2 := by
  obtain ⟨p, ps, rfl⟩ := List.exists_cons_of_ne_nil h.ne
  have hp := List.mem_cons_self (a := p) (l := ps)
  have hnone := h.reg p hp
  rcases Bool.eq_false_or_eq_true p.byval with hb | hb
  · obtain rfl : ps = [] := by simpa using h.single p hp (.inl hb)
    exact .inr (by simp [aapcs_byval hb, hnone])
  rcases Bool.eq_false_or_eq_true p.sret with hsr | hsr
  · obtain rfl : ps = [] := by simpa using h.single p hp (.inr hsr)
    refine .inl ⟨[8], by simp [aapcs_sret hb hsr], [8], by simp [aapcs], List.infix_rfl⟩
  -- no part is special now
  have hb' : ∀ q ∈ p :: ps, q.byval = false ∧ q.sret = false := by
    intro q hq
    by_contra hne
    have hq' : q.byval = true ∨ q.sret = true := by
      rcases Bool.eq_false_or_eq_true q.byval with h₁ | h₁ <;>
        rcases Bool.eq_false_or_eq_true q.sret with h₂ | h₂ <;> simp_all
    have heq := h.single q hq hq'
    obtain ⟨rfl, -⟩ : p = q ∧ ps = [] := by simpa using heq
    simp [hb, hsr] at hq'
  have hbank : ∀ q ∈ p :: ps, q.bank = p.bank := fun q hq => h.bank q hq p hp
  have htail : ∀ q ∈ ps, q.align ≤ 8 := h.align_tail
  have hc := h.consecutive 0 p rfl
  have hmore : ∀ q ∈ ps, q.byval = false ∧ q.sret = false ∧ q.bank = p.bank ∧ q.align ≤ 8 := fun q hq =>
    ⟨(hb' q (List.mem_cons_of_mem _ hq)).1, (hb' q (List.mem_cons_of_mem _ hq)).2,
      hbank q (List.mem_cons_of_mem _ hq), htail q hq⟩
  by_cases hgp : p.bank = 0
  · by_cases hfit : s.ngrnFor p + p.consecutive < 8
    · -- the first register may be rounded up to an even one, the others follow
      have hn : s.ngrnFor p + (ps.length + 1) ≤ 8 := by
        simp only [List.length_cons] at hc
        split at hc <;> omega
      have hstep := aapcs_gp_reg hb hsr hgp hfit
      obtain ⟨hregs, -⟩ := assignAll_regs (A := aapcs) (R := List.range 8) (I := fun k s => s.ngrn = k)
        (Q := fun q => q.byval = false ∧ q.sret = false ∧ q.bank = p.bank ∧ q.align ≤ 8)
        (by
          rintro k s q rfl ⟨h₁, h₂, h₃, h₄⟩ hlt
          have hfor : s.ngrnFor q = s.ngrn := by simp [CCAssignerAAPCS.ngrnFor, show ¬ 8 < q.align by omega]
          have hlt' : s.ngrnFor q + q.consecutive < 8 := by simpa [hfor] using hlt
          rw [aapcs_gp_reg h₁ h₂ (h₃.trans hgp) hlt', hfor]
          exact ⟨by simp [List.getElem?_range (show s.ngrn < 8 by omega)], rfl⟩)
        ps (s.ngrnFor p + 1) (aapcs.assignArg s p).1 (by rw [hstep]) hmore
        (h.tail_consecutive_eq (by omega)) (by simp; omega)
      refine whole_regs (k := s.ngrnFor p)
        (n := ps.length + 1) (by simp [aapcs] : List.range 8 ∈ aapcs.argRegs) ?_
      rw [assignAll_cons, List.map_cons, hregs, hstep,
        List.drop_eq_getElem_cons (show s.ngrnFor p < (List.range 8).length by simp; omega)]
      simp
    · refine .inr (whole_stack (J := fun s => s.ngrn = 8)
        (Q := fun q => q.byval = false ∧ q.sret = false ∧ q.bank = p.bank ∧ q.align ≤ 8) ?_ h ?_ ?_ hmore)
      · rintro s q hJ ⟨h₁, h₂, h₃, h₄⟩
        have hfor : s.ngrnFor q = 8 := by simp [CCAssignerAAPCS.ngrnFor, show ¬ 8 < q.align by omega, hJ]
        rw [aapcs_gp_stack h₁ h₂ (h₃.trans hgp) (by omega)]
        exact ⟨rfl, fun _ => rfl⟩
      · rw [aapcs_gp_stack hb hsr hgp hfit]
        exact hnone
      · rw [aapcs_gp_stack hb hsr hgp hfit]
        exact fun _ => rfl
  · by_cases hfit : s.nsrn + p.consecutive < 8
    · have hn : s.nsrn + (ps.length + 1) ≤ 8 := by
        simp only [List.length_cons] at hc
        split at hc <;> omega
      obtain ⟨hregs, -⟩ := assignAll_regs (A := aapcs) (R := List.range' 32 8) (I := fun k s => s.nsrn = k)
        (Q := fun q => q.byval = false ∧ q.sret = false ∧ q.bank = p.bank)
        (by
          rintro k s q rfl ⟨h₁, h₂, h₃⟩ hlt
          have hlt' : s.nsrn + q.consecutive < 8 := by simpa using hlt
          rw [aapcs_fp_reg h₁ h₂ (by rw [h₃]; exact hgp) hlt']
          exact ⟨by simp [List.getElem?_range' (show s.nsrn < 8 by omega)], rfl⟩)
        (p :: ps) s.nsrn s rfl (fun q hq => ⟨(hb' q hq).1, (hb' q hq).2, hbank q hq⟩)
        (h.consecutive_eq (by simp; omega)) (by simp; omega)
      exact whole_regs (by simp [aapcs]) hregs
    · refine .inr (whole_stack (J := fun s => s.nsrn = 8)
        (Q := fun q => q.byval = false ∧ q.sret = false ∧ q.bank = p.bank ∧ q.align ≤ 8) ?_ h ?_ ?_ hmore)
      · rintro s q hJ ⟨h₁, h₂, h₃, -⟩
        rw [aapcs_fp_stack h₁ h₂ (by rw [h₃]; exact hgp) (by omega)]
        exact ⟨rfl, fun _ => rfl⟩
      · rw [aapcs_fp_stack hb hsr hgp hfit]
        exact hnone
      · rw [aapcs_fp_stack hb hsr hgp hfit]
        exact fun _ => rfl

/-- Parts for vector registers, with some of these left, but too few: one goes to the stack. -/
theorem sysV_split : ∀ (ps : List CCAssignment) (s : CCAssignerSysV),
    (∀ p ∈ ps, p.reg = none ∧ p.byval = false ∧ p.bank ≠ 0) → s.mustAssignStack = 0 → s.xmmCnt ≤ 8 →
      8 < s.xmmCnt + ps.length → ∃ q ∈ (sysV.assignAll s ps).2, q.reg = none := by
  intro ps
  induction ps with
  | nil => exact fun s _ _ h₁ h₂ => absurd h₂ (by simp only [List.length_nil]; omega)
  | cons p ps ih =>
    intro s hQ hm hx hlt
    obtain ⟨hnone, hb, hbank⟩ := hQ p List.mem_cons_self
    rw [assignAll_cons]
    by_cases hx8 : s.xmmCnt < 8
    · have hstep := sysV_fp_reg hb hbank hm hx8
      obtain ⟨q, hq, hq'⟩ := ih (sysV.assignArg s p).1 (fun q hq => hQ q (List.mem_cons_of_mem _ hq))
        (by rw [hstep]) (by rw [hstep]; exact hx8) (by
          rw [hstep]
          simp only [List.length_cons] at hlt
          show 8 < s.xmmCnt + 1 + ps.length
          omega)
      exact ⟨q, List.mem_cons_of_mem _ hq, hq'⟩
    · refine ⟨_, List.mem_cons_self, ?_⟩
      rw [sysV_fp_stack hb hbank (by omega)]
      exact hnone

/-- An argument on SysV stays whole, unless it is for vector registers and there are some left, but
too few. -/
theorem sysV_whole_iff (s : CCAssignerSysV) {ps : List CCAssignment} (h : Marked ps) :
    Whole sysV (sysV.assignAll s ps).2 ↔ ((∀ p ∈ ps, p.byval = false ∧ p.bank ≠ 0) → s.mustAssignStack = 0 →
      s.xmmCnt < 8 → s.xmmCnt + ps.length ≤ 8) := by
  obtain ⟨p, ps, rfl⟩ := List.exists_cons_of_ne_nil h.ne
  have hp := List.mem_cons_self (a := p) (l := ps)
  have hnone := h.reg p hp
  rcases Bool.eq_false_or_eq_true p.byval with hb | hb
  · obtain rfl : ps = [] := by simpa using h.single p hp (.inl hb)
    exact iff_of_true (.inr (by simp [sysV_byval hb, hnone])) fun hfp => absurd (hfp p hp).1 (by simp [hb])
  have hb' : ∀ q ∈ p :: ps, q.byval = false := by
    intro q hq
    by_contra hne
    have heq := h.single q hq (.inl (by simpa using hne))
    obtain ⟨rfl, -⟩ : p = q ∧ ps = [] := by simpa using heq
    exact hne hb
  have hbank : ∀ q ∈ p :: ps, q.bank = p.bank := fun q hq => h.bank q hq p hp
  have hmore : ∀ q ∈ ps, q.byval = false ∧ q.bank = p.bank := fun q hq =>
    ⟨hb' q (List.mem_cons_of_mem _ hq), hbank q (List.mem_cons_of_mem _ hq)⟩
  have hc := h.consecutive 0 p rfl
  by_cases hgp : p.bank = 0
  · refine iff_of_true ?_ fun hfp => absurd hgp (hfp p hp).2
    by_cases hfit : s.mustAssignStack = 0 ∧ s.gpCnt + p.consecutive < 6
    · have hn : s.gpCnt + (ps.length + 1) ≤ 6 := by
        simp only [List.length_cons] at hc
        split at hc <;> omega
      obtain ⟨hregs, -⟩ := assignAll_regs (A := sysV) (R := CCAssignerSysV.gpArgRegs)
        (I := fun k s => s.gpCnt = k ∧ s.mustAssignStack = 0) (Q := fun q => q.byval = false ∧
          q.bank = p.bank)
        (by
          rintro k s q ⟨rfl, hm⟩ ⟨h₁, h₂⟩ hlt
          rw [sysV_gp_reg h₁ (h₂.trans hgp) hm hlt]
          exact ⟨rfl, rfl, rfl⟩)
        (p :: ps) s.gpCnt s ⟨rfl, hfit.1⟩ (fun q hq => ⟨hb' q hq, hbank q hq⟩)
        (h.consecutive_eq (by rw [List.length_cons]; omega))
        (show s.gpCnt + (ps.length + 1) ≤ 6 from hn)
      exact whole_regs (by simp [sysV]) hregs
    · refine .inr (whole_stack (J := fun s => s.mustAssignStack ≠ 0)
        (Q := fun q => q.byval = false ∧ q.bank = p.bank) ?_ h ?_ ?_ hmore)
      · rintro s q hJ ⟨h₁, h₂⟩
        rw [sysV_gp_stack h₁ (h₂.trans hgp) (fun hne => hJ hne.1)]
        exact ⟨rfl, fun hpos => hpos.ne'⟩
      · rw [sysV_gp_stack hb hgp hfit]
        exact hnone
      · rw [sysV_gp_stack hb hgp hfit]
        exact fun hpos => hpos.ne'
  · have hfp : ∀ q ∈ p :: ps, q.byval = false ∧ q.bank ≠ 0 := fun q hq =>
      ⟨hb' q hq, by rw [hbank q hq]; exact hgp⟩
    by_cases hfree : s.mustAssignStack = 0 ∧ s.xmmCnt < 8
    · by_cases hfit : s.xmmCnt + (p :: ps).length ≤ 8
      · refine iff_of_true ?_ fun _ _ _ => hfit
        obtain ⟨hregs, -⟩ := assignAll_regs (A := sysV) (R := CCAssignerSysV.xmmArgRegs)
          (I := fun k s => s.xmmCnt = k ∧ s.mustAssignStack = 0) (Q := fun q => q.byval = false ∧ q.bank ≠ 0)
          (by
            rintro k s q ⟨rfl, hm⟩ ⟨h₁, h₂⟩ hlt
            have hlt' : s.xmmCnt + q.consecutive < 8 := by simpa [CCAssignerSysV.xmmArgRegs] using hlt
            rw [sysV_fp_reg h₁ h₂ hm (by omega)]
            refine ⟨?_, rfl, rfl⟩
            simp [CCAssignerSysV.xmmArgRegs, List.getElem?_range' (show s.xmmCnt < 8 by omega)])
          (p :: ps) s.xmmCnt s ⟨rfl, hfree.1⟩ hfp (h.consecutive_eq (by omega))
          (by simpa [CCAssignerSysV.xmmArgRegs] using hfit)
        exact whole_regs (by simp [sysV]) hregs
      · -- the first part is in a register, and a later one is not
        refine iff_of_false ?_ fun hall => hfit (hall hfp hfree.1 hfree.2)
        obtain ⟨q, hq, hqnone⟩ := sysV_split (p :: ps) s
          (fun q hq => ⟨h.reg q hq, hfp q hq⟩) hfree.1 hfree.2.le (by omega)
        rintro (⟨rs, hrs, -⟩ | hall)
        · have : q.reg ∈ rs.map some := hrs ▸ List.mem_map_of_mem hq
          simp [hqnone] at this
        · have := hall (sysV.assignArg s p).2 (by rw [assignAll_cons]; exact List.mem_cons_self)
          simp [sysV_fp_reg hb hgp hfree.1 hfree.2] at this
    · refine iff_of_true ?_ fun _ h₁ h₂ => absurd ⟨h₁, h₂⟩ hfree
      refine .inr (whole_stack (J := fun s => ¬ (s.mustAssignStack = 0 ∧ s.xmmCnt < 8))
        (Q := fun q => q.byval = false ∧ q.bank = p.bank) ?_ h ?_ ?_ hmore)
      · rintro s q hJ ⟨h₁, h₂⟩
        rw [sysV_fp_stack h₁ (by rw [h₂]; exact hgp) hJ]
        exact ⟨rfl, fun hpos hne => hpos.ne' hne.1⟩
      · rw [sysV_fp_stack hb hgp hfree]
        exact hnone
      · rw [sysV_fp_stack hb hgp hfree]
        exact fun hpos hne => hpos.ne' hne.1

theorem sysV_whole_all : ∀ (args : List (List CCAssignment)) (s : CCAssignerSysV), (∀ ps ∈ args, Marked ps) →
    ((∀ out ∈ (sysV.assignArgs s args).2, Whole sysV out) ↔ FpFits s args) := by
  intro args
  induction args with
  | nil => exact fun s _ => iff_of_true nofun trivial
  | cons ps args ih =>
    intro s h
    rw [assignArgs_cons, List.forall_mem_cons, FpFits, sysV_whole_iff s (h ps List.mem_cons_self),
      ih _ fun qs hqs => h qs (List.mem_cons_of_mem _ hqs)]

theorem aapcs_whole_all : ∀ (args : List (List CCAssignment)) (s : CCAssignerAAPCS),
    (∀ ps ∈ args, Marked ps) →
    ∀ out ∈ (aapcs.assignArgs s args).2, Whole aapcs out := by
  intro args
  induction args with
  | nil => exact fun s _ => nofun
  | cons ps args ih =>
    intro s h
    rw [assignArgs_cons, List.forall_mem_cons]
    exact ⟨aapcs_whole s (h ps List.mem_cons_self), ih _ fun qs hqs => h qs (List.mem_cons_of_mem _ hqs)⟩

/-! ### The interface -/

theorem args_reg {args : List (List CCAssignment)} (h : ∀ ps ∈ args, Marked ps) :
    ∀ p ∈ args.flatten, p.reg = none := by
  intro p hp
  obtain ⟨ps, hps, hp⟩ := List.mem_flatten.mp hp
  exact (h ps hps).reg p hp

/-- **Both assigners honour the calling convention interface** exactly if their stack areas stay
below 4 GiB and, on SysV, no argument for vector registers starts in the last of these without
fitting. At most one argument is a result pointer. -/
theorem assigners_honour {args : List (List CCAssignment)} (h : ∀ ps ∈ args, Marked ps)
    (hsret : args.flatten.Pairwise fun p q => ¬ (p.sret = true ∧ q.sret = true)) :
    Honours sysV args ∧ Honours aapcs args ↔
      FpFits {} args ∧ StackFits sysV CCAssignerSysV.ToStack {} args.flatten ∧
        StackFits aapcs CCAssignerAAPCS.ToStack {} args.flatten := by
  have hsys := stack_iff sysV_toStack sysV_stackStep rfl h
  have haa := stack_iff aapcs_toStack aapcs_stackStep rfl h
  have hnone := args_reg h
  have honce := (assignAll_once (A := sysV) (L := fun _ s => s.left) (I := fun _ ps => ∀ p ∈ ps, p.reg = none)
    (fun s p ps hI => ⟨fun q hq => hI q (List.mem_cons_of_mem _ hq), sysV_once s p (hI p List.mem_cons_self)⟩)
    args.flatten sysV.init hnone).1
  have honce' := (assignAll_once aapcs_once args.flatten aapcs.init ⟨Nat.zero_le 8, hnone, hsret⟩).1
  rw [← (assignArgs_flatten sysV sysV.init args).2] at honce
  rw [← (assignArgs_flatten aapcs aapcs.init args).2] at honce'
  constructor
  · rintro ⟨h₁, h₂⟩
    exact ⟨(sysV_whole_all args _ h).mp h₁.whole, hsys.mp ⟨h₁.apart, h₁.covered⟩,
      haa.mp ⟨h₂.apart, h₂.covered⟩⟩
  · rintro ⟨h₁, h₂, h₃⟩
    obtain ⟨hap, hcov⟩ := hsys.mpr h₂
    obtain ⟨hap', hcov'⟩ := haa.mpr h₃
    exact ⟨⟨(sysV_whole_all args _ h).mpr h₁, honce, hap, stack_aligned sysV_stackStep h, hcov⟩,
      ⟨aapcs_whole_all args _ h, honce', hap', stack_aligned aapcs_stackStep h, hcov'⟩⟩

/-- A result pointer, four numbers, an `i128` that does not fit behind them, an area by value and a
`double`. -/
def mixedArgs : List (List CCAssignment) :=
  [[{ sret := true, size := 8 }], [{ size := 8 }], [{ size := 4 }], [{ size := 8 }], [{ size := 8 }],
    [{ consecutive := 1, align := 16, size := 8 }, { align := 1, size := 8 }],
    [{ byval := true, align := 32, bank := 255, size := 40 }], [{ bank := 1, size := 8 }]]

theorem marked_one {p : CCAssignment} (hreg : p.reg = none) (hc : p.consecutive = 0)
    (hal : p.align = 0 ∨ ∃ k ≤ 7, p.align = 2 ^ k) (hfp : p.byval = false → p.bank ≠ 0 → p.align ≤ 8)
    (hsize : if p.byval then p.size < 2 ^ 32 else ∃ k ≤ 7, p.size = 2 ^ k) : Marked [p] := by
  refine ⟨by simp, by simpa using hreg, by simp, fun i q hq => ?_, by simp, by simpa using hal, by simp,
    by simpa using hfp, by simpa using hsize⟩
  obtain ⟨rfl, rfl⟩ : i = 0 ∧ p = q := by simpa [List.getElem?_singleton] using hq
  simp [hc]

theorem marked_two {p q : CCAssignment} (hp : p.reg = none ∧ p.consecutive = 1 ∧ p.byval = false ∧
    p.sret = false)
    (hq : q.reg = none ∧ q.consecutive = 0 ∧ q.byval = false ∧ q.sret = false) (hbank : p.bank = q.bank)
    (hal : p.align = 0 ∨ ∃ k ≤ 7, p.align = 2 ^ k) (hal' : q.align = 1 ∨ q.align = 0)
    (hfp : p.bank ≠ 0 → p.align ≤ 8) (hsize : ∃ k ≤ 7, p.size = 2 ^ k) (hsize' : ∃ k ≤ 7, q.size = 2 ^ k) :
    Marked [p, q] := by
  refine ⟨by simp, by simp [hp, hq], by simp [hbank], fun i r hr => ?_, by simp [hp, hq], ?_, ?_, ?_, ?_⟩
  · match i, hr with
    | 0, hr => obtain rfl : p = r := by simpa using hr
               simp [hp]
    | 1, hr => obtain rfl : q = r := by simpa using hr
               simp [hq]
  · simp only [List.forall_mem_cons, List.not_mem_nil, false_implies, implies_true, and_true]
    refine ⟨hal, ?_⟩
    rcases hal' with h | h
    · simp [h]
      exact ⟨0, by decide⟩
    · simp [h]
  · rcases hal' with h | h <;> simp [h]
  · simp only [List.forall_mem_cons, List.not_mem_nil, false_implies, implies_true, and_true]
    exact ⟨fun _ => hfp, by rcases hal' with h | h <;> simp [h]⟩
  · simp only [List.forall_mem_cons, List.not_mem_nil, false_implies, implies_true, and_true, hp, hq]
    exact ⟨by simpa using hsize, by simpa using hsize'⟩

theorem mixedArgs_marked : ∀ ps ∈ mixedArgs, Marked ps := by
  simp only [mixedArgs, List.forall_mem_cons, List.not_mem_nil, false_implies, implies_true, and_true]
  refine ⟨?_, ?_, ?_, ?_, ?_, ?_, ?_, ?_⟩
  · exact marked_one rfl rfl (.inl rfl) (by simp) ⟨3, by decide⟩
  · exact marked_one rfl rfl (.inl rfl) (by simp) ⟨3, by decide⟩
  · exact marked_one rfl rfl (.inl rfl) (by simp) ⟨2, by decide⟩
  · exact marked_one rfl rfl (.inl rfl) (by simp) ⟨3, by decide⟩
  · exact marked_one rfl rfl (.inl rfl) (by simp) ⟨3, by decide⟩
  · exact marked_two ⟨rfl, rfl, rfl, rfl⟩ ⟨rfl, rfl, rfl, rfl⟩ rfl (.inr ⟨4, by decide⟩) (.inl rfl) (by simp)
      ⟨3, by decide⟩ ⟨3, by decide⟩
  · exact marked_one rfl rfl (.inr ⟨5, by decide⟩) (by simp) (show (40 : ℕ) < 2 ^ 32 by decide)
  · exact marked_one rfl rfl (.inl rfl) (by simp) ⟨3, by decide⟩

/-- The assigners on `mixedArgs`. -/
theorem assigners_honour_mixedArgs : Honours sysV mixedArgs ∧ Honours aapcs mixedArgs :=
  (assigners_honour mixedArgs_marked (by simp [mixedArgs])).mpr (by decide +kernel)

/-- Seven `double`s, and an argument of two `double`s that is not to be split. -/
def splitArgs : List (List CCAssignment) :=
  List.replicate 7 [{ bank := 1, size := 8 }] ++
    [[{ consecutive := 1, bank := 1, size := 8 }, { bank := 1, size := 8 }]]

theorem splitArgs_marked : ∀ ps ∈ splitArgs, Marked ps := by
  simp only [splitArgs, List.mem_append, List.mem_replicate, List.mem_singleton]
  rintro ps (⟨-, rfl⟩ | rfl)
  · exact marked_one rfl rfl (.inl rfl) (by simp) ⟨3, by decide⟩
  · exact marked_two ⟨rfl, rfl, rfl, rfl⟩ ⟨rfl, rfl, rfl, rfl⟩ rfl (.inl rfl) (.inr rfl) (by simp)
      ⟨3, by decide⟩
      ⟨3, by decide⟩

/-- SysV gives the last argument XMM7 and a stack slot. -/
theorem sysV_splits_argument : (∀ ps ∈ splitArgs, Marked ps) ∧
    (splitArgs.flatten.Pairwise fun p q => ¬ (p.sret = true ∧ q.sret = true)) ∧ ¬ Honours sysV splitArgs := by
  refine ⟨splitArgs_marked, by simp [splitArgs, List.replicate], fun h => ?_⟩
  have hlast := h.whole ((sysV.assignArgs sysV.init splitArgs).2.getLast (by decide)) (List.getLast_mem _)
  have hout : ((sysV.assignArgs sysV.init splitArgs).2.getLast (by decide)).map (·.reg) =
    [some 39, none] := by decide
  rcases hlast with ⟨rs, hrs, -⟩ | hall
  · have : none ∈ rs.map some := by rw [← hrs, hout]; simp
    simp at this
  · have : some 39 ∈ ((sysV.assignArgs sysV.init splitArgs).2.getLast (by decide)).map (·.reg) := by
      rw [hout]
      exact List.mem_cons_self
    obtain ⟨p, hp, he⟩ := List.mem_map.mp this
    simp [hall p hp] at he

end Tpde.Target
