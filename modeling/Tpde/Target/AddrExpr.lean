import Mathlib.Tactic.Ring
import Tpde.Compiler.ValueInv

/-!
# Address expressions

`GenericValuePart::Expr` is a base, an index with a scale and a displacement. The
`gval_expr_as_reg` of a target computes it into a scratch register, which is one that the
expression owns where there is one; the other owned registers are given back.

What both targets share is here: the expressions, the state while a result register is
owned (`Owns`, `Selected`), and what a caller gets (`Materialises`).
-/

namespace Tpde.Values

open RegMachine

/-- `std::variant<AsmReg, ScratchReg>`: a register of something else, or an owned one. -/
inductive Holder where
  | reg (r : Reg)
  | scratch (r : Reg)
  deriving DecidableEq, Repr

namespace Holder

/-- The register. -/
def cur : Holder → Reg
  | reg r | scratch r => r

/-- The register where it is owned. -/
def owned : Holder → Multiset Reg
  | reg _ => 0
  | scratch r => {r}

end Holder

/-- `GenericValuePart::Expr`, with what `index_reg` asserts of it: an index comes with a
scale, and without a base it is not 1. -/
structure Expr where
  base : Option Holder
  index : Option Holder
  scale : Word
  disp : Word
  indexed : scale ≠ 0 → index.isSome
  unscaled : scale = 1 → base.isSome
  deriving DecidableEq

namespace Expr

variable (e : Expr)

/-- The base register. -/
def baseReg : Option Reg := e.base.map Holder.cur

/-- The index register where there is an index: where the scale is not 0. -/
def indexReg : Option Reg := if e.scale = 0 then none else e.index.map Holder.cur

/-- The registers that the expression owns. -/
def owned : Multiset Reg := (e.base.elim 0 Holder.owned) + (e.index.elim 0 Holder.owned)

/-- The value of the expression. -/
def eval (rf : Reg → Word) : Word := (e.baseReg.elim 0 rf) + (e.indexReg.elim 0 rf) * e.scale + e.disp

end Expr

/-- `x & (x - 1)` is zero: no bit is set, or one. -/
def isPow2 (x : Word) : Bool := x &&& (x - 1) == 0

/-- A number fits in 32 bits with its sign. -/
def fits32 (x : Word) : Bool := sext 32 x == x

namespace St

/-- The owned registers besides the result are given back when the expression ends. -/
def dropHolder (s : St) (h : Option Holder) (dst : Reg) : Except Stop St :=
  match h with
  | some (.scratch r) => if r = dst then .ok s else s.resetScratch r
  | _ => .ok s

end St

/-! ### Powers of two -/

theorem fits32_iff {x : Word} : fits32 x = true ↔ sext 32 x = x := by simp [fits32]

theorem isPow2_iff {x : Word} (hx : x ≠ 0) : isPow2 x = true ↔ ∃ k < 64, x = BitVec.twoPow 64 k := by
  have hpos : x.toNat ≠ 0 := fun h => hx (BitVec.eq_of_toNat_eq (by simpa using h))
  have hsub : (x - 1).toNat = x.toNat - 1 := BitVec.toNat_sub_of_le (by
    rw [BitVec.le_def]
    exact Nat.one_le_iff_ne_zero.mpr hpos)
  have hand : isPow2 x = true ↔ x.toNat &&& (x.toNat - 1) = 0 := by
    rw [isPow2, beq_iff_eq, ← BitVec.toNat_inj, BitVec.toNat_and, hsub]
    rfl
  rw [hand, Nat.and_sub_one_eq_zero_iff_isPowerOfTwo hpos]
  constructor
  · rintro ⟨k, hk⟩
    have hlt : k < 64 := by
      have := x.isLt
      rw [hk] at this
      exact (Nat.pow_lt_pow_iff_right (by omega)).mp this
    refine ⟨k, hlt, BitVec.eq_of_toNat_eq ?_⟩
    rw [hk, BitVec.toNat_twoPow_of_lt hlt]
  · rintro ⟨k, hlt, rfl⟩
    exact ⟨k, BitVec.toNat_twoPow_of_lt hlt⟩

theorem ctz_twoPow : ∀ {k : ℕ}, k < 64 → (BitVec.twoPow 64 k).ctz.toNat = k := by
  decide +kernel

/-- A shift by the lowest bit that is set multiplies by a power of two. -/
theorem shiftLeft_ctz {x : Word} (hx : x ≠ 0) (h : isPow2 x = true) (y : Word) :
    y <<< x.ctz.toNat = y * x := by
  obtain ⟨k, hk, rfl⟩ := (isPow2_iff hx).mp h
  rw [ctz_twoPow hk, BitVec.shiftLeft_eq_mul_twoPow]

theorem ctz_lt {x : Word} (hx : x ≠ 0) (h : isPow2 x = true) : x.ctz.toNat < 64 := by
  obtain ⟨k, hk, rfl⟩ := (isPow2_iff hx).mp h
  rwa [ctz_twoPow hk]

/-- The scale byte of a `lea`. -/
theorem scaleByte {x : Word} (hx : x ≠ 0) (h : isPow2 x = true) (hlt : x.slt 16 = true)
    (hmin : x ≠ BitVec.twoPow 64 63) :
    (x.setWidth 8).toNat ∈ [1, 2, 4, 8] ∧ BitVec.ofNat 64 (x.setWidth 8).toNat = x := by
  obtain ⟨k, hk, rfl⟩ := (isPow2_iff hx).mp h
  have : ∀ k < 64, (BitVec.twoPow 64 k).slt 16 = true → BitVec.twoPow 64 k ≠ BitVec.twoPow 64 63 →
      ((BitVec.twoPow 64 k).setWidth 8).toNat ∈ [1, 2, 4, 8] ∧
        BitVec.ofNat 64 ((BitVec.twoPow 64 k).setWidth 8).toNat = BitVec.twoPow 64 k := by decide +kernel
  exact this k hk hlt hmin

/-! ### Code into an owned register -/

/-- The state holds `K`, and `dst` as a scratch register. -/
structure Owns (arch : Arch) (s : St) (dst : Reg) (K : Multiset Reg) : Prop where
  regs : Regs arch s (dst ::ₘ K)
  temp : s.used dst = some none

section
variable {arch : Arch} {s s' : St} {dst tmp r : Reg} {K : Multiset Reg} {m : Machine Val}

theorem Owns.notMem (h : Owns arch s dst K) : dst ∉ K := by
  have := h.regs.temp dst h.temp
  rw [Multiset.count_cons_self] at this
  exact Multiset.count_eq_zero.mp (by omega)

theorem Owns.ne_framePtr (h : Owns arch s dst K) : dst ≠ arch.framePtr :=
  fun heq => framePtr_not_mem arch (heq ▸ h.regs.usable dst (by simp [h.temp]))

theorem Owns.emits (h : Owns arch s dst K) (code : List (Instr Val Op)) (hcode : Writes [dst] code) :
    Owns arch (s.emits code) dst K ∧ Keeps arch K s (s.emits code) :=
  ⟨⟨h.regs.emits code, h.temp⟩, .emits h.regs hcode (by simpa using .inl h.temp) (by simpa using h.notMem)⟩

/-- A second scratch register for some code. -/
theorem Owns.withScratch {c : Config} (h : Owns c.arch s dst K) (hroom : K.card ≤ 7)
    (code : Reg → List (Instr Val Op))
    (hcode : ∀ tmp, Writes [tmp, dst] (code tmp)) :
    ∃ tmp s', (do let (tmp, s) ← c.allocScratch s; (s.emits (code tmp)).resetScratch tmp) = .ok s' ∧
      Owns c.arch s' dst K ∧
      Keeps c.arch K s s' ∧ tmp ≠ dst ∧ tmp ∉ K ∧ tmp ≠ c.arch.framePtr ∧
      ∀ m, ∃ m₁ : Machine Val, (∀ r, r = dst ∨ r ∈ K ∨ r = c.arch.framePtr → m₁.reg r = m.reg r) ∧
        s.after s' m = run Op.eval m₁ (code tmp) := by
  obtain ⟨tmp, s₁, hs₁, h₁, hk₁, hu, -⟩ := h.regs.allocScratch (c := c) (by simpa using by omega)
  have htmp : tmp ∉ dst ::ₘ K := Owns.notMem ⟨h₁, hu⟩
  have hdst : s₁.used dst = some none := (hk₁.used dst (Multiset.mem_cons_self ..)).trans h.temp
  have hne : tmp ≠ dst := fun heq => htmp (heq ▸ Multiset.mem_cons_self ..)
  obtain ⟨hreset, h₂, hk₂⟩ := (h₁.emits (code tmp)).resetScratch hu
  have hemit : Keeps c.arch K s₁ (s₁.emits (code tmp)) := by
    refine .emits h₁ (hcode tmp) (by simp [Writable, hu, hdst]) ?_
    simp only [List.mem_cons, List.not_mem_nil, or_false, forall_eq_or_imp, forall_eq]
    exact ⟨fun hm => htmp (Multiset.mem_cons_of_mem hm), h.notMem⟩
  have hkeep := ((hk₁.mono fun r hr => Multiset.mem_cons_of_mem hr).trans hemit).trans
    (hk₂.mono fun r hr => Multiset.mem_cons_of_mem hr)
  refine ⟨tmp, _, ?_, ⟨h₂, ?_⟩, hkeep, hne, fun hm => htmp (Multiset.mem_cons_of_mem hm),
    Owns.ne_framePtr ⟨h₁, hu⟩,
    fun m => ⟨s.after s₁ m, fun r hr => ?_, ?_⟩⟩
  · simp only [hs₁, ok_bind, hreset]
  · exact (Function.update_of_ne (Ne.symm hne) ..).trans hdst
  · exact hk₁.reg m r (by rw [Multiset.mem_cons]; tauto)
  · rw [← St.after_after hk₁.code (hemit.trans (hk₂.mono fun r hr => Multiset.mem_cons_of_mem hr)).code]
    exact St.after_of_append rfl _

/-- The registers whose contents code may read: the result, the held ones and the frame pointer. -/
def Readable (arch : Arch) (dst : Reg) (K : Multiset Reg) (r : Reg) : Prop :=
  r = dst ∨ r ∈ K ∨ r = arch.framePtr

/-- An owned register among the held ones takes the place of the result. -/
theorem Owns.swap {r : Reg} (h : Owns arch s dst (r ::ₘ K)) (hr : s.used r = some none) :
    Owns arch s r (dst ::ₘ K) :=
  ⟨by rw [Multiset.cons_swap]; exact h.regs, hr⟩

/-- What a caller sees to: the registers that the expression owns are scratch registers,
the others are held, and a few are left. -/
structure Ready (arch : Arch) (s : St) (e : Expr) (rest : Multiset Reg) : Prop where
  regs : Regs arch s (e.owned + rest)
  temp : ∀ r ∈ e.owned, s.used r = some none
  reads : ∀ r, e.baseReg = some r ∨ e.indexReg = some r → r ∈ e.owned + rest ∨ r = arch.framePtr
  room : (e.owned + rest).card ≤ 6

/-- The result register is there, and the others that the expression owns. -/
structure Selected (arch : Arch) (s s' : St) (e : Expr) (rest : Multiset Reg) (dst : Reg) : Prop where
  owns : Owns arch s' dst (e.owned.erase dst + rest)
  keeps : Keeps arch (e.owned + rest) s s'
  reg : ∀ m, (s.after s' m).reg = m.reg

theorem Selected.of_mem {e : Expr} {rest : Multiset Reg} (h : Ready arch s e rest)
    (hmem : r ∈ e.owned) : Selected arch s s e rest r := by
  refine ⟨⟨?_, h.temp r hmem⟩, Keeps.refl .., fun m => by rw [St.after_self rfl]⟩
  rw [← Multiset.cons_add, Multiset.cons_erase hmem]
  exact h.regs

theorem Selected.alloc {c : Config} {e : Expr} {rest : Multiset Reg} (h : Ready c.arch s e rest) :
    ∃ dst s', c.allocScratch s = .ok (dst, s') ∧ Selected c.arch s s' e rest dst := by
  obtain ⟨dst, s', hs', h', hk, hu, hreg⟩ := h.regs.allocScratch (c := c) (by have := h.room; omega)
  refine ⟨dst, s', hs', ⟨⟨?_, hu⟩, hk, hreg⟩⟩
  have hnot : dst ∉ e.owned + rest := Owns.notMem ⟨h', hu⟩
  rwa [Multiset.erase_of_notMem fun hmem => hnot (Multiset.mem_add.mpr (.inl hmem))]

namespace Selected

variable {e : Expr} {rest : Multiset Reg}

theorem room (_ : Selected arch s s' e rest dst) (h : Ready arch s e rest) :
    (e.owned.erase dst + rest).card ≤ 6 := by
  refine le_trans (Multiset.card_le_card (Multiset.add_le_add_right (Multiset.erase_le ..))) h.room

theorem temp (hs : Selected arch s s' e rest dst) (h : Ready arch s e rest) (hr : r ∈ e.owned) :
    s'.used r = some none :=
  (hs.keeps.used r (Multiset.mem_add.mpr (.inl hr))).trans (h.temp r hr)

theorem readable (_ : Selected arch s s' e rest dst) (h : Ready arch s e rest)
    (hr : e.baseReg = some r ∨ e.indexReg = some r) :
    Readable arch dst (e.owned.erase dst + rest) r := by
  by_cases heq : r = dst
  · exact .inl heq
  · refine .inr ((h.reads r hr).imp_left fun hmem => ?_)
    rw [Multiset.mem_add] at hmem ⊢
    exact hmem.imp_left (Multiset.mem_erase_of_ne heq).mpr

end Selected

theorem Owns.dropHolder {h : Option Holder} {rest : Multiset Reg}
    (ho : Owns arch s dst ((h.elim 0 Holder.owned).erase dst + rest))
    (ht : ∀ r ∈ h.elim 0 Holder.owned, s.used r = some none) :
    ∃ s', s.dropHolder h dst = .ok s' ∧ Owns arch s' dst rest ∧ Keeps arch rest s s' ∧ s'.code = s.code := by
  rcases h with _ | ⟨r | r⟩
  · exact ⟨s, rfl, by simpa using ho, Keeps.refl .., rfl⟩
  · exact ⟨s, rfl, by simpa [Holder.owned] using ho, Keeps.refl .., rfl⟩
  · by_cases heq : r = dst
    · subst heq
      exact ⟨s, by simp [St.dropHolder], by simpa [Holder.owned] using ho, Keeps.refl .., rfl⟩
    · have hu : s.used r = some none := ht r (by simp [Holder.owned])
      have herase : (Multiset.erase {r} dst : Multiset Reg) = {r} :=
        Multiset.erase_of_notMem (by simpa using Ne.symm heq)
      simp only [Option.elim_some, Holder.owned, herase, Multiset.singleton_add] at ho
      obtain ⟨hreset, h', hk⟩ := (ho.swap hu).regs.resetScratch hu
      refine ⟨_, by simp only [St.dropHolder, if_neg heq, hreset], ⟨h', ?_⟩,
        hk.mono fun _ hm => Multiset.mem_cons_of_mem hm, rfl⟩
      exact (Function.update_of_ne (Ne.symm heq) ..).trans ho.temp

/-- The expression ends, and its result is left. -/
theorem Owns.dropHolders {e : Expr} {rest : Multiset Reg} (ho : Owns arch s dst (e.owned.erase dst + rest))
    (ht : ∀ r ∈ e.owned, s.used r = some none) :
    ∃ s₁ s₂, s.dropHolder e.base dst = .ok s₁ ∧ s₁.dropHolder e.index dst = .ok s₂ ∧
      Owns arch s₂ dst rest ∧ Keeps arch rest s s₂ ∧
      s₂.code = s.code := by
  have hcount : e.owned.count dst ≤ 1 := by
    have := Multiset.count_eq_zero_of_notMem ho.notMem
    rw [Multiset.count_add, Multiset.count_erase_self] at this
    omega
  have hsplit :
    e.owned.erase dst = (e.base.elim 0 Holder.owned).erase dst + (e.index.elim 0 Holder.owned).erase dst := by
    ext r
    by_cases heq : r = dst
    · subst heq
      rw [Expr.owned, Multiset.count_add] at hcount
      simp only [Expr.owned, Multiset.count_add, Multiset.count_erase_self]
      omega
    · simp only [Expr.owned, Multiset.count_add, Multiset.count_erase_of_ne heq]
  rw [hsplit, Multiset.add_assoc] at ho
  obtain ⟨s₁, hs₁, ho₁, hk₁, hc₁⟩ := ho.dropHolder fun r hr => ht r (Multiset.mem_add.mpr (.inl hr))
  have ht₁ : ∀ r ∈ e.index.elim 0 Holder.owned, s₁.used r = some none := by
    intro r hr
    have hu := ht r (Multiset.mem_add.mpr (.inr hr))
    by_cases heq : r = dst
    · exact heq ▸ ho₁.temp
    · refine (hk₁.used r ?_).trans hu
      exact Multiset.mem_add.mpr (.inl ((Multiset.mem_erase_of_ne heq).mpr hr))
  obtain ⟨s₂, hs₂, ho₂, hk₂, hc₂⟩ := ho₁.dropHolder ht₁
  exact ⟨s₁, s₂, hs₁, hs₂, ho₂, (hk₁.mono fun r hr => Multiset.mem_add.mpr (.inr hr)).trans hk₂,
    hc₂.trans hc₁⟩

/-- What `gval_expr_as_reg` is asked for: a register with the value of the expression, which
is the only one held besides `rest` then, while the registers of `rest` and the values stay. -/
structure Materialises (arch : Arch) (s s' : St) (e : Expr) (rest : Multiset Reg) (dst : Reg) : Prop where
  owns : Owns arch s' dst rest
  keeps : Keeps arch rest s s'
  value : ∀ m, (s.after s' m).reg dst = e.eval m.reg

end

section
variable {e : Expr} {r : Reg}

theorem Expr.scale_ne (he : e.indexReg.isSome) : e.scale ≠ 0 := by
  intro hz
  simp [indexReg, hz] at he

theorem Expr.scratch_index {idx : Reg} (hidx : e.indexReg = some idx)
    (hr : e.index = some (.scratch r)) : r = idx := by
  have hs := e.scale_ne (hidx ▸ rfl)
  simp only [indexReg, hs, hr, Holder.cur, if_false, Option.map_some, Option.some.injEq] at hidx
  exact hidx

end

/-! ### A small state -/

/-- Nothing is used. -/
def St.start : St := ⟨fun _ => none, fun _ => 0, fun _ => none, 0, []⟩

theorem regs_start (arch : Arch) : Regs arch St.start 0 := by
  have hlock : ∀ r, St.start.fixedLock r = 0 := fun r => St.fixedLock_free rfl
  refine ⟨fun r v => by simp [St.start, St.regOf], fun r hr => absurd rfl hr,
    fun r => by rw [hlock]; rfl, fun r hr => ?_,
    by simp, fun v a ha => ?_, by simp [hlock], by simp [St.start]⟩
  · simp [St.start] at hr
  · simp [St.start] at ha

/-- A target with nothing to be said of its values. -/
def plain (arch : Arch) : Config := ⟨arch, fun _ => false, fun _ => 0, fun _ => none⟩

/-- The third register as a scratch register. -/
def scratch3 : St := St.start.setReg 3 (some none) 1

/-- An owned base with an index of its own, three times. -/
def threefold : Expr := ⟨some (.scratch 3), some (.reg 3), 3, 2 ^ 40, by simp, by simp⟩

/-- An owned index alone, twice. -/
def twofold : Expr := ⟨none, some (.scratch 3), 2, 5, by simp, by decide⟩

theorem ready_scratch3 (arch : Arch) {e : Expr} (ho : e.owned = {3})
    (hr : ∀ r, e.baseReg = some r ∨ e.indexReg = some r → r = 3) :
    Ready arch scratch3 e 0 := by
  have h : Regs arch scratch3 {3} := (regs_start arch).scratch (by cases arch <;> decide) rfl rfl rfl rfl rfl
  refine ⟨by rw [ho]; exact h, fun r hr => ?_, fun r hr' => ?_, by rw [ho]; decide⟩
  · rw [ho, Multiset.mem_singleton] at hr
    exact hr ▸ rfl
  · rw [ho, hr r hr']
    exact .inl (by decide)

theorem ready_threefold (arch : Arch) : Ready arch scratch3 threefold 0 :=
  ready_scratch3 arch (by decide) fun r hr => hr.elim (fun h => (Option.some.inj h).symm) fun h =>
    (Option.some.inj h).symm

end Tpde.Values
