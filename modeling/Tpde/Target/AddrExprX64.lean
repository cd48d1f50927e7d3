import Mathlib
import Tpde.Target.AddrExpr

/-!
# Address expressions on x86-64

A sum of a base and an index with a small power of two as its scale is one `lea`. Other
scales are multiplied first, into the result or, where that is the base, into a second
register. What is left of the displacement is added at the end.

Four kinds of expressions are not computed right, and only these (`gvalExprAsRegX64_iff`):
an expression without base and index, one without base whose displacement is added by the
`lea` and again at the end, the scale that is the least number, and `-1` as the scale of
the base itself.
-/

namespace Tpde.Values

open RegMachine

/-! ### The code -/

namespace St

/-- `LEA64rm`: with an index the scale is 1, 2, 4 or 8. -/
def lea (s : St) (dst : Reg) (base : Option Reg) (sc : ℕ) (idx : Option Reg) (disp : Word) : Except Stop St :=
  if idx.isSome ∧ sc ∉ [1, 2, 4, 8] then .error .assertion
    else .ok (s.emits [.set dst (.lea base sc idx disp)])

/-- Adds the base to the scaled index, and says which displacement is left. -/
def addBaseX64 (s : St) (dst tmp : Reg) (base : Option Reg) (disp : Word) : Except Stop (Word × St) :=
  match base with
  | none => .ok (disp, s)
  | some b =>
    if fits32 disp || (tmp != dst && b != dst) then do
      return (0, ← s.lea dst (some b) 1 (some tmp) (sext 32 disp))
    else if dst = b then .ok (disp, s.emits [.set dst (.add dst tmp)])
    else .ok (disp, s.emits [.set dst (.add dst b)])

end St

namespace Config

variable (c : Config)

/-- The result register: that of the base, that of the index, or a new one. -/
def resultX64 (s : St) (e : Expr) : Except Stop (Reg × St) :=
  match e.base, e.index with
  | some (.scratch r), _ => .ok (r, s)
  | _, some (.scratch r) => .ok (r, s)
  | _, _ => c.allocScratch s

/-- Multiplies `idx` into `tmp`, by a shift or by a product. -/
def scaleX64 (s : St) (tmp idx : Reg) (scale : Word) : Except Stop St :=
  if isPow2 scale then
    if scale = 0 then .error .undefined
    else .ok
      (s.emits ((if tmp ≠ idx then [.set tmp (.mov idx)] else []) ++ [.set tmp (.shl tmp scale.ctz.toNat)]))
  else if fits32 scale then .ok (s.emits [.set tmp (.mulImm idx scale)])
  else do
    let (tmp2, s) ← c.allocScratch s
    (s.emits (.set tmp2 (.movImm scale) :: (if tmp ≠ idx then [.set tmp (.mov idx)] else []) ++
      [.set tmp (.mul tmp tmp2)])).resetScratch tmp2

/-- Where the scaled index goes, and whether the register is a new one: not over the base. -/
def indexTmpX64 (s : St) (e : Expr) (dst : Reg) (base : Option Reg) : Except Stop (Reg × Bool × St) :=
  if base = some dst then
    match e.index with
    | some (.scratch r) => .ok (r, false, s)
    | _ => do
      let (r, s) ← c.allocScratch s
      return (r, true, s)
  else .ok (dst, false, s)

/-- The scaled index and the base by separate instructions. -/
def productX64 (s : St) (e : Expr) (dst : Reg) (base : Option Reg) (idx : Reg) (scale : Word) :
    Except Stop (Word × St) := do
  let (tmp, new, s) ← c.indexTmpX64 s e dst base
  let s ← c.scaleX64 s tmp idx scale
  let (disp, s) ← s.addBaseX64 dst tmp base e.disp
  return (disp, ← if new then s.resetScratch tmp else pure s)

/-- Base and index, and which displacement is left. -/
def sumX64 (s : St) (e : Expr) (dst : Reg) : Except Stop (Word × St) :=
  match e.indexReg, e.baseReg with
  | some idx, base =>
    if isPow2 e.scale && e.scale.slt 16 then
      let sc := (e.scale.setWidth 8).toNat
      match base with
      | some b => do
        if fits32 e.disp then return (0, ← s.lea dst (some b) sc (some idx) e.disp)
        else return (e.disp, ← s.lea dst (some b) sc (some idx) 0)
      | none => do return (e.disp, ← s.lea dst none sc (some idx) (if fits32 e.disp then e.disp else 0))
    else if base = some idx then c.productX64 s e dst none idx (e.scale + 1)
    else c.productX64 s e dst base idx e.scale
  | none, some b =>
    if e.disp ≠ 0 ∧ fits32 e.disp then do return (0, ← s.lea dst (some b) 0 none e.disp)
    else .ok (e.disp, if dst ≠ b then s.emits [.set dst (.mov b)] else s)
  | none, none => .ok (e.disp, s)

/-- Adds what is left of the displacement. -/
def addDispX64 (s : St) (dst : Reg) (disp : Word) : Except Stop St :=
  if disp ≠ 0 then do
    let (tmp, s) ← c.allocScratch s
    (s.emits [.set tmp (.movImm disp), .set dst (.add dst tmp)]).resetScratch tmp
  else .ok s

/-- `gval_expr_as_reg` on x86-64. -/
def gvalExprAsRegX64 (s : St) (e : Expr) : Except Stop (Reg × St) := do
  let (dst, s) ← c.resultX64 s e
  let (disp, s) ← c.sumX64 s e dst
  let s ← c.addDispX64 s dst disp
  let s ← s.dropHolder e.base dst
  return (dst, ← s.dropHolder e.index dst)

end Config

/-! ### Its parts -/

section
variable {arch : Arch} {s s' : St} {dst tmp r : Reg} {K : Multiset Reg} {m : Machine Val}

theorem scaleX64_ok {c : Config} {idx : Reg} {scale : Word} (h : Owns c.arch s tmp K)
    (hidx : Readable c.arch tmp K idx)
    (hscale : scale ≠ 0) (hroom : K.card ≤ 7) :
    ∃ s', c.scaleX64 s tmp idx scale = .ok s' ∧ Owns c.arch s' tmp K ∧ Keeps c.arch K s s' ∧
      ∀ m, (s.after s' m).reg tmp = m.reg idx * scale := by
  unfold Config.scaleX64
  split
  · rename_i hpow
    obtain ⟨ho, hk⟩ :=
      h.emits ((if tmp ≠ idx then [.set tmp (.mov idx)] else []) ++ [.set tmp (.shl tmp scale.ctz.toNat)])
      (by unfold Writes; split <;> simp)
    refine ⟨_, rfl, ho, hk, fun m => ?_⟩
    rw [St.after_emits, ← shiftLeft_ctz hscale hpow, ← Nat.mod_eq_of_lt (ctz_lt hscale hpow)]
    split
    · simp [exec, Op.eval]
    · rename_i heq
      rw [not_not] at heq
      simp [exec, Op.eval, heq]
  · split
    · obtain ⟨ho, hk⟩ := h.emits [.set tmp (.mulImm idx scale)] (by simp [Writes])
      exact ⟨_, rfl, ho, hk, fun m => by simp [exec, Op.eval]⟩
    · obtain ⟨tmp2, s', hs', ho, hk, hne, hnot, hfp, hafter⟩ := h.withScratch hroom
        (fun tmp2 => .set tmp2 (.movImm scale) :: (if tmp ≠ idx then [.set tmp (.mov idx)] else []) ++
          [.set tmp (.mul tmp tmp2)])
        (fun tmp2 => by unfold Writes; split <;> simp)
      refine ⟨s', hs', ho, hk, fun m => ?_⟩
      obtain ⟨m₁, hm₁, hafter⟩ := hafter m
      have hidx2 : idx ≠ tmp2 := by
        rintro rfl
        rcases hidx with hidx | hidx | hidx
        · exact hne hidx
        · exact hnot hidx
        · exact hfp hidx
      rw [hafter, ← hm₁ idx hidx]
      split
      · simp [exec, Op.eval, Function.update_of_ne hidx2, Function.update_of_ne hne]
      · rename_i heq
        rw [not_not] at heq
        simp [exec, Op.eval, heq, Function.update_of_ne hidx2]

theorem addDispX64_ok {c : Config} (disp : Word) (h : Owns c.arch s dst K) (hroom : K.card ≤ 7) :
    ∃ s', c.addDispX64 s dst disp = .ok s' ∧ Owns c.arch s' dst K ∧ Keeps c.arch K s s' ∧
      ∀ m, (s.after s' m).reg dst = m.reg dst + disp := by
  unfold Config.addDispX64
  split
  · obtain ⟨tmp, s', hs', ho, hk, hne, -, -, hafter⟩ := h.withScratch hroom
      (fun tmp => [.set tmp (.movImm disp), .set dst (.add dst tmp)]) (fun tmp => by simp [Writes])
    refine ⟨s', hs', ho, hk, fun m => ?_⟩
    obtain ⟨m₁, hm₁, hafter⟩ := hafter m
    rw [hafter, ← hm₁ dst (.inl rfl)]
    simp [exec, Op.eval, Function.update_of_ne hne.symm]
  · rename_i hzero
    rw [not_not] at hzero
    exact ⟨s, rfl, h, Keeps.refl .., fun m => by simp [St.after_self, hzero]⟩

/-- The base is added to the scaled index in `tmp`, which is the result or in place of a
base that is there. -/
theorem addBaseX64_ok (tmp : Reg) (base : Option Reg) (disp : Word) (h : Owns arch s dst K)
    (hcase : tmp = dst ∧ base ≠ some dst ∨ tmp ≠ dst ∧ base = some dst) :
    ∃ d s', s.addBaseX64 dst tmp base disp = .ok (d, s') ∧ Owns arch s' dst K ∧ Keeps arch K s s' ∧
      ∀ m, (s.after s' m).reg dst + d = base.elim 0 m.reg + m.reg tmp + disp := by
  unfold St.addBaseX64
  cases base with
  | none =>
    obtain ⟨rfl, -⟩ | ⟨-, h'⟩ := hcase
    · exact ⟨disp, s, rfl, h, Keeps.refl .., fun m => by simp [St.after_self]⟩
    · simp at h'
  | some b =>
    have hfalse : (tmp != dst && b != dst) = false := by
      rcases hcase with ⟨rfl, -⟩ | ⟨-, hb⟩
      · simp
      · simp [Option.some.inj hb]
    simp only [hfalse, Bool.or_false]
    split
    · rename_i hfits
      obtain ⟨ho, hk⟩ := h.emits [.set dst (.lea (some b) 1 (some tmp) (sext 32 disp))] (by simp [Writes])
      refine ⟨0, _, rfl, ho, hk, fun m => ?_⟩
      rw [fits32_iff.mp hfits] at *
      simp [exec, Op.eval]
    · split
      · rename_i hdst
        obtain ⟨ho, hk⟩ := h.emits [.set dst (.add dst tmp)] (by simp [Writes])
        refine ⟨disp, _, rfl, ho, hk, fun m => ?_⟩
        simp [exec, Op.eval, hdst]
      · rename_i hdst
        obtain ⟨rfl, -⟩ | ⟨-, hb⟩ := hcase
        · obtain ⟨ho, hk⟩ := h.emits [.set tmp (.add tmp b)] (by simp [Writes])
          refine ⟨disp, _, rfl, ho, hk, fun m => ?_⟩
          simp [exec, Op.eval, BitVec.add_comm (m.reg b)]
        · exact absurd (Option.some.inj hb).symm hdst

theorem indexTmpX64_self {c : Config} {e : Expr} (base : Option Reg) (hbase : base ≠ some dst) :
    c.indexTmpX64 s e dst base = .ok (dst, false, s) := if_neg hbase

/-- What is computed and what is left to add. -/
structure Sum (arch : Arch) (s s' : St) (dst : Reg) (K rest : Multiset Reg) (d : Word)
    (f : Machine Val → Word) : Prop where
  owns : Owns arch s' dst K
  keeps : Keeps arch rest s s'
  used : ∀ r ∈ K, s'.used r = s.used r
  value : ∀ m, (s.after s' m).reg dst + d = f m

theorem Sum.of_keeps {d : Word} {f : Machine Val → Word} {rest : Multiset Reg} (ho : Owns arch s' dst K)
    (hk : Keeps arch K s s') (hrest : rest ≤ K)
    (hv : ∀ m, (s.after s' m).reg dst + d = f m) : Sum arch s s' dst K rest d f :=
  ⟨ho, hk.mono fun _ hr => Multiset.mem_of_le hrest hr, hk.used, hv⟩

/-- The product in a new register. -/
theorem productX64_new {c : Config} {e : Expr} {idx : Reg} {scale : Word} {O rest : Multiset Reg}
    (h : Owns c.arch s dst (O + rest)) (hroom : (O + rest).card ≤ 6)
    (hidx : Readable c.arch dst (O + rest) idx) (hne : idx ≠ dst)
    (hscale : scale ≠ 0) (htmp : c.indexTmpX64 s e dst (some dst) =
      (do let (r, s) ← c.allocScratch s; return (r, true, s))) :
    ∃ d s', c.productX64 s e dst (some dst) idx scale = .ok (d, s') ∧
      Sum c.arch s s' dst (O + rest) rest d fun m => m.reg dst + m.reg idx * scale + e.disp := by
  obtain ⟨tmp, s₀, hs₀, h₀, hk₀, hu₀, -⟩ :=
    h.regs.allocScratch (c := c) (by simp only [Multiset.card_cons]; omega)
  have hown₀ : Owns c.arch s₀ tmp (dst ::ₘ (O + rest)) := ⟨h₀, hu₀⟩
  have htd : tmp ≠ dst := fun heq => hown₀.notMem (heq ▸ Multiset.mem_cons_self ..)
  have hread : ∀ r, Readable c.arch dst (O + rest) r → r ∈ dst ::ₘ (O + rest) ∨ r = c.arch.framePtr := by
    rintro r (rfl | hr | hr)
    · exact .inl (Multiset.mem_cons_self ..)
    · exact .inl (Multiset.mem_cons_of_mem hr)
    · exact .inr hr
  obtain ⟨s₁, hs₁, ho₁, hk₁, hv₁⟩ :=
    scaleX64_ok hown₀ (.inr (hread idx hidx)) hscale (by simp only [Multiset.card_cons]; omega)
  have hdst₁ : s₁.used dst = some none :=
    ((hk₁.used dst (Multiset.mem_cons_self ..)).trans (hk₀.used dst (Multiset.mem_cons_self ..))).trans h.temp
  obtain ⟨d, s₂, hs₂, ho₂, hk₂, hv₂⟩ := addBaseX64_ok tmp (some dst) e.disp (ho₁.swap hdst₁) (.inr ⟨htd, rfl⟩)
  have htmp₂ : s₂.used tmp = some none := (hk₂.used tmp (Multiset.mem_cons_self ..)).trans ho₁.temp
  obtain ⟨hreset, h₃, hk₃⟩ := (ho₂.swap htmp₂).regs.resetScratch htmp₂
  have hk₀₁ := hk₀.trans hk₁
  have hk₂₃ : Keeps c.arch (O + rest) s₁ (s₂.setReg tmp none 0) :=
    (hk₂.mono fun r hr => Multiset.mem_cons_of_mem hr).trans
      (hk₃.mono fun r hr => Multiset.mem_cons_of_mem hr)
  refine ⟨d, s₂.setReg tmp none 0, ?_,
    .of_keeps ⟨h₃, ?_⟩ ((hk₀₁.mono fun r hr => Multiset.mem_cons_of_mem hr).trans hk₂₃)
    (Multiset.le_add_left ..) fun m => ?_⟩
  · simp only [Config.productX64, htmp, hs₀, ok_bind, hs₁, hs₂, hreset, if_true, pure_bind]
    rfl
  · exact (Function.update_of_ne (Ne.symm htd) ..).trans ho₂.temp
  · have hlast (m : Machine Val) : s₁.after (s₂.setReg tmp none 0) m = s₁.after s₂ m := rfl
    rw [← St.after_after hk₀₁.code hk₂₃.code, hlast, hv₂, ← St.after_after hk₀.code hk₁.code, hv₁]
    dsimp only [Option.elim_some]
    rw [hk₁.reg _ dst (.inl (Multiset.mem_cons_self ..)), hk₀.reg m dst (.inl (Multiset.mem_cons_self ..)),
      hk₀.reg m idx (hread idx hidx)]

theorem productX64_ok {c : Config} {e : Expr} {base : Option Reg} {idx : Reg} {scale : Word}
    {O rest : Multiset Reg}
    (h : Owns c.arch s dst (O + rest)) (hroom : (O + rest).card ≤ 6)
    (hidx : Readable c.arch dst (O + rest) idx)
    (hbase : ∀ b, base = some b → Readable c.arch dst (O + rest) b) (hne : base ≠ some idx)
    (hscale : scale ≠ 0)
    (hown : ∀ r, e.index = some (.scratch r) → r = idx ∧ (r ≠ dst → r ∈ O ∧ s.used r = some none)) :
    ∃ d s', c.productX64 s e dst base idx scale = .ok (d, s') ∧
      Sum c.arch s s' dst (O + rest) rest d fun m => base.elim 0 m.reg + m.reg idx * scale + e.disp := by
  unfold Config.productX64
  by_cases hb : base = some dst
  · subst hb
    have hidxne : idx ≠ dst := fun heq => hne (heq ▸ rfl)
    have hdstfp := h.ne_framePtr
    rcases hindex : e.index with _ | ⟨r | r⟩
    · exact productX64_new h hroom hidx hidxne hscale (by simp [Config.indexTmpX64, hindex])
    · exact productX64_new h hroom hidx hidxne hscale (by simp [Config.indexTmpX64, hindex])
    · obtain ⟨heq, hscratch⟩ := hown r hindex
      subst heq
      obtain ⟨hmem, hu⟩ := hscratch hidxne
      obtain ⟨O', rfl⟩ := Multiset.exists_cons_of_mem hmem
      rw [Multiset.cons_add] at h
      have hswap := h.swap hu
      have hself : Readable c.arch r (dst ::ₘ (O' + rest)) r := .inl rfl
      obtain ⟨s₁, hs₁, ho₁, hk₁, hv₁⟩ := scaleX64_ok (c := c) hswap hself hscale (by simp at hroom ⊢; omega)
      have hdst₁ : s₁.used dst = some none := (hk₁.used dst (Multiset.mem_cons_self ..)).trans h.temp
      obtain ⟨d, s₂, hs₂, ho₂, hk₂, hv₂⟩ := addBaseX64_ok r (some dst) e.disp (ho₁.swap hdst₁)
        (.inr ⟨hidxne, rfl⟩)
      refine ⟨d, s₂, ?_, ⟨by rw [Multiset.cons_add]; exact ho₂, ?_, fun r' hr' => ?_, fun m => ?_⟩⟩
      · simp only [Config.indexTmpX64, hindex, if_true, ok_bind, hs₁, hs₂]
        rfl
      · refine (hk₁.mono fun r' hr' => ?_).trans (hk₂.mono fun r' hr' => ?_)
        · exact Multiset.mem_cons_of_mem (Multiset.mem_add.mpr (.inr hr'))
        · exact Multiset.mem_cons_of_mem (Multiset.mem_add.mpr (.inr hr'))
      · rw [Multiset.cons_add] at hr'
        rw [hk₂.used r' hr']
        rcases Multiset.mem_cons.mp hr' with rfl | hr'
        · exact ho₁.temp.trans hu.symm
        · exact hk₁.used r' (Multiset.mem_cons_of_mem hr')
      · rw [← St.after_after hk₁.code hk₂.code, hv₂, hv₁]
        dsimp only [Option.elim_some]
        rw [hk₁.reg m dst (.inl (Multiset.mem_cons_self ..))]
  · rw [indexTmpX64_self base hb]
    obtain ⟨s₁, hs₁, ho₁, hk₁, hv₁⟩ := scaleX64_ok h hidx hscale (by omega)
    obtain ⟨d, s₂, hs₂, ho₂, hk₂, hv₂⟩ := addBaseX64_ok dst base e.disp ho₁ (.inl ⟨rfl, hb⟩)
    refine ⟨d, s₂, ?_, .of_keeps ho₂ (hk₁.trans hk₂) (Multiset.le_add_left ..) fun m => ?_⟩
    · simp only [ok_bind, hs₁, hs₂]
      rfl
    · rw [← St.after_after hk₁.code hk₂.code, hv₂, hv₁]
      congr 2
      cases base with
      | none => rfl
      | some b =>
        refine hk₁.reg m b ?_
        rcases hbase b rfl with rfl | hb' | hb'
        · exact absurd rfl hb
        · exact .inl hb'
        · exact .inr hb'

theorem resultX64_ok {c : Config} {e : Expr} {rest : Multiset Reg} (h : Ready c.arch s e rest) :
    ∃ dst s', c.resultX64 s e = .ok (dst, s') ∧ Selected c.arch s s' e rest dst := by
  unfold Config.resultX64
  split
  · rename_i hb
    exact ⟨_, s, rfl, .of_mem h (by simp [Expr.owned, hb, Holder.owned])⟩
  · rename_i hi _
    exact ⟨_, s, rfl, .of_mem h (by simp [Expr.owned, hi, Holder.owned])⟩
  · exact Selected.alloc h

end

/-! ### The result -/

/-- The expressions that `gval_expr_as_reg` computes right on x86-64. -/
structure Expr.OkX64 (e : Expr) : Prop where
  present : e.baseReg.isSome ∨ e.indexReg.isSome
  once : e.baseReg = none → e.indexReg.isSome → isPow2 e.scale = true → e.scale.slt 16 = true →
    fits32 e.disp = true → e.disp = 0
  least : e.indexReg.isSome → e.scale ≠ BitVec.twoPow 64 63
  self : ∀ r, e.baseReg = some r → e.indexReg = some r → e.scale + 1 ≠ 0

section
variable {c : Config} {s s' : St} {dst r : Reg} {arch : Arch} {K rest : Multiset Reg} {e : Expr}

/-- A `lea` into the result. -/
theorem Owns.lea (h : Owns arch s dst K) (base idx : Option Reg) (sc : ℕ) (disp : Word)
    (hsc : idx.isSome → sc ∈ [1, 2, 4, 8]) :
    ∃ s', s.lea dst base sc idx disp = .ok s' ∧ Owns arch s' dst K ∧ Keeps arch K s s' ∧
      ∀ m, (s.after s' m).reg dst = base.elim 0 m.reg + idx.elim 0 m.reg * BitVec.ofNat 64 sc + disp := by
  obtain ⟨ho, hk⟩ := h.emits [.set dst (.lea base sc idx disp)] (by simp [Writes])
  refine ⟨_, if_neg fun hbad => hbad.2 (hsc hbad.1), ho, hk, fun m => ?_⟩
  rw [St.after_emits]
  simp [exec, Op.eval]

theorem sumX64_ok (h : Ready c.arch s e rest) {s₁ : St} (hs : Selected c.arch s s₁ e rest dst)
    (hok : e.OkX64) :
    ∃ d s', c.sumX64 s₁ e dst = .ok (d, s') ∧
      Sum c.arch s₁ s' dst (e.owned.erase dst + rest) rest d fun m => e.eval m.reg := by
  have hroom := hs.room h
  have hrest : rest ≤ e.owned.erase dst + rest := Multiset.le_add_left ..
  have hown (idx : Reg) (hidx : e.indexReg = some idx) (r : Reg) (hr : e.index = some (.scratch r)) :
      r = idx ∧ (r ≠ dst → r ∈ e.owned.erase dst ∧ s₁.used r = some none) := by
    have hmem : r ∈ e.owned := by simp [Expr.owned, hr, Holder.owned]
    exact ⟨e.scratch_index hidx hr, fun hne => ⟨(Multiset.mem_erase_of_ne hne).mpr hmem, hs.temp h hmem⟩⟩
  have hread {r : Reg} (hr : e.baseReg = some r ∨ e.indexReg = some r) := hs.readable h hr
  unfold Config.sumX64
  cases hi : e.indexReg with
  | some idx =>
    have hscale := e.scale_ne (hi ▸ rfl)
    dsimp only
    split
    · rename_i hcond
      rw [Bool.and_eq_true] at hcond
      obtain ⟨hsc, hval⟩ := scaleByte hscale hcond.1 hcond.2 (hok.least (hi ▸ rfl))
      generalize (e.scale.setWidth 8).toNat = sc at hsc hval
      cases hb : e.baseReg with
      | some b =>
        dsimp only
        split
        · obtain ⟨s', hs', ho, hk, hv⟩ := hs.owns.lea (some b) (some idx) _ e.disp fun _ => hsc
          refine ⟨0, s', by rw [hs']; rfl, .of_keeps ho hk hrest fun m => ?_⟩
          simp [hv, Expr.eval, hb, hi, hval]
        · obtain ⟨s', hs', ho, hk, hv⟩ := hs.owns.lea (some b) (some idx) _ 0 fun _ => hsc
          refine ⟨e.disp, s', by rw [hs']; rfl, .of_keeps ho hk hrest fun m => ?_⟩
          simp [hv, Expr.eval, hb, hi, hval]
      | none =>
        obtain ⟨s', hs', ho, hk, hv⟩ :=
          hs.owns.lea none (some idx) _ (if fits32 e.disp then e.disp else 0) fun _ => hsc
        refine ⟨e.disp, s', by rw [hs']; rfl, .of_keeps ho hk hrest fun m => ?_⟩
        have honce := hok.once hb (hi ▸ rfl) hcond.1 hcond.2
        simp only [hv, Expr.eval, hb, hi, hval]
        split
        · simp [honce ‹_›]
        · simp
    · split
      · rename_i hb
        have hself := hok.self idx hb hi
        have hnone (b : Reg) (hb : none = some b) : Readable c.arch dst (e.owned.erase dst + rest) b :=
          absurd hb (by simp)
        obtain ⟨d, s', hs', hsum⟩ :=
          productX64_ok (e := e) hs.owns hroom (hread (.inr hi)) hnone (Option.some_ne_none idx).symm
            hself (hown idx hi)
        refine ⟨d, s', hs', hsum.owns, hsum.keeps, hsum.used, fun m => ?_⟩
        rw [hsum.value, Expr.eval, hb, hi]
        simp only [Option.elim_none, Option.elim_some]
        ring
      · rename_i hb
        obtain ⟨d, s', hs', hsum⟩ :=
          productX64_ok (e := e) hs.owns hroom (hread (.inr hi)) (fun b hb' => hread (.inl hb')) hb
            hscale (hown idx hi)
        refine ⟨d, s', hs', hsum.owns, hsum.keeps, hsum.used, fun m => ?_⟩
        rw [hsum.value, Expr.eval, hi]
        rfl
  | none =>
    cases hb : e.baseReg with
    | some b =>
      dsimp only
      split
      · obtain ⟨s', hs', ho, hk, hv⟩ := hs.owns.lea (some b) none 0 e.disp (by simp)
        refine ⟨0, s', by rw [hs']; rfl, .of_keeps ho hk hrest fun m => ?_⟩
        simp [hv, Expr.eval, hb, hi]
      · split
        · obtain ⟨ho, hk⟩ := hs.owns.emits [.set dst (.mov b)] (by simp [Writes])
          refine ⟨e.disp, _, rfl, .of_keeps ho hk hrest fun m => ?_⟩
          simp [exec, Op.eval, Expr.eval, hb, hi]
        · rename_i heq
          rw [not_not] at heq
          refine ⟨e.disp, _, rfl, .of_keeps hs.owns (Keeps.refl ..) hrest fun m => ?_⟩
          simp [St.after_self, Expr.eval, hb, hi, heq]
    | none =>
      have := hok.present
      simp [hb, hi] at this

/-- The rest of `gval_expr_as_reg` on x86-64, from the sum on. -/
theorem gvalExprAsRegX64_of_sum (h : Ready c.arch s e rest) {s₁ s₂ : St} {d : Word} {f : Machine Val → Word}
    (hres : c.resultX64 s e = .ok (dst, s₁)) (hs : Selected c.arch s s₁ e rest dst)
    (hsum : c.sumX64 s₁ e dst = .ok (d, s₂))
    (hsum' : Sum c.arch s₁ s₂ dst (e.owned.erase dst + rest) rest d f) :
    ∃ s', c.gvalExprAsRegX64 s e = .ok (dst, s') ∧ Owns c.arch s' dst rest ∧ Keeps c.arch rest s s' ∧
      ∀ m, (s.after s' m).reg dst = f (s.after s₁ m) := by
  have hroom := hs.room h
  obtain ⟨s₃, hs₃, ho₃, hk₃, hv₃⟩ := addDispX64_ok (c := c) d hsum'.owns (by omega)
  have ht : ∀ r ∈ e.owned, s₃.used r = some none := by
    intro r hr
    by_cases heq : r = dst
    · exact heq ▸ ho₃.temp
    · have hmem : r ∈ e.owned.erase dst + rest :=
        Multiset.mem_add.mpr (.inl ((Multiset.mem_erase_of_ne heq).mpr hr))
      rw [hk₃.used r hmem, hsum'.used r hmem]
      exact hs.temp h hr
  obtain ⟨s₄, s₅, hs₄, hs₅, ho₅, hk₅, hc₅⟩ := ho₃.dropHolders ht
  have hk₁ := hs.keeps.mono fun r hr => Multiset.mem_add.mpr (.inr hr)
  have hk₃' := hk₃.mono fun r hr => Multiset.mem_add.mpr (.inr hr)
  have hlast (m : Machine Val) : s₂.after s₅ m = s₂.after s₃ m := by simp only [St.after, hc₅]
  refine ⟨s₅, ?_, ho₅, hk₁.trans (hsum'.keeps.trans (hk₃'.trans hk₅)), fun m => ?_⟩
  · simp only [Config.gvalExprAsRegX64, hres, ok_bind, hsum, hs₃, hs₄, hs₅]
    rfl
  · rw [← St.after_after hk₁.code (hsum'.keeps.trans (hk₃'.trans hk₅)).code,
      ← St.after_after hsum'.keeps.code (hk₃'.trans hk₅).code,
      hlast, hv₃, hsum'.value]

/-- An expression that is `OkX64` is computed. -/
theorem gvalExprAsRegX64_ok (h : Ready c.arch s e rest) (hok : e.OkX64) :
    ∃ dst s', c.gvalExprAsRegX64 s e = .ok (dst, s') ∧ Materialises c.arch s s' e rest dst := by
  obtain ⟨dst, s₁, hres, hs⟩ := resultX64_ok h
  obtain ⟨d, s₂, hsum, hsum'⟩ := sumX64_ok h hs hok
  obtain ⟨s', hs', ho, hk, hv⟩ := gvalExprAsRegX64_of_sum h hres hs hsum hsum'
  exact ⟨dst, s', hs', ho, hk, fun m => by rw [hv, hs.reg]⟩

/-- The sum comes out as `f`, and no other value is computed. -/
theorem eval_of_sum (h : Ready c.arch s e rest) {s₁ s₂ : St} {dst₁ : Reg} {d : Word} {f : Machine Val → Word}
    (hres : c.resultX64 s e = .ok (dst₁, s₁)) (hs : Selected c.arch s s₁ e rest dst₁)
    (hsum : c.sumX64 s₁ e dst₁ = .ok (d, s₂))
    (hsum' : Sum c.arch s₁ s₂ dst₁ (e.owned.erase dst₁ + rest) rest d f)
    (hok : c.gvalExprAsRegX64 s e = .ok (dst, s'))
    (hm : Materialises c.arch s s' e rest dst) (m : Machine Val) : f (s.after s₁ m) = e.eval m.reg := by
  obtain ⟨s₃, hs₃, -, -, hv⟩ := gvalExprAsRegX64_of_sum h hres hs hsum hsum'
  rw [hok] at hs₃
  cases hs₃
  rw [← hv m, hm.value m]

/-- Where the sum stops, so does `gval_expr_as_reg`. -/
theorem gvalExprAsRegX64_error {s₁ : St} {dst₁ : Reg} {stop : Stop} (hres : c.resultX64 s e = .ok (dst₁, s₁))
    (hsum : c.sumX64 s₁ e dst₁ = .error stop) : c.gvalExprAsRegX64 s e = .error stop := by
  simp only [Config.gvalExprAsRegX64, hres, ok_bind, hsum]
  rfl

/-- **What x86-64 computes**: a register with the value comes out exactly for the
expressions of `OkX64`. -/
theorem gvalExprAsRegX64_iff (h : Ready c.arch s e rest) :
    (∃ dst s', c.gvalExprAsRegX64 s e = .ok (dst, s') ∧ Materialises c.arch s s' e rest dst) ↔ e.OkX64 := by
  refine ⟨?_, gvalExprAsRegX64_ok h⟩
  rintro ⟨dst, s', hok, hm⟩
  obtain ⟨dst₁, s₁, hres, hs⟩ := resultX64_ok h
  have hrest : rest ≤ e.owned.erase dst₁ + rest := Multiset.le_add_left ..
  have hstop (stop : Stop) (hsum : c.sumX64 s₁ e dst₁ = .error stop) : False := by
    rw [gvalExprAsRegX64_error hres hsum] at hok
    cases hok
  have hleast : e.indexReg.isSome → e.scale ≠ BitVec.twoPow 64 63 := by
    intro hi hscale
    obtain ⟨idx, hi⟩ := Option.isSome_iff_exists.mp hi
    have hpow : (isPow2 (BitVec.twoPow 64 63) && (BitVec.twoPow 64 63).slt 16) = true := by decide +kernel
    have hbyte : ((BitVec.twoPow 64 63).setWidth 8).toNat = 0 := by decide +kernel
    refine hstop .assertion ?_
    simp only [Config.sumX64, hi, hscale, hpow, if_true, hbyte, St.lea, Option.isSome_some, true_and]
    cases e.baseReg <;> cases fits32 e.disp <;> rfl
  refine ⟨?_, ?_, hleast, ?_⟩
  · by_contra hnone
    simp only [not_or, Bool.not_eq_true, Option.isSome_eq_false_iff, Option.isNone_iff_eq_none] at hnone
    have hsum : c.sumX64 s₁ e dst₁ = .ok (e.disp, s₁) := by simp only [Config.sumX64, hnone]
    have hval :=
      eval_of_sum h hres hs hsum
        (.of_keeps hs.owns (Keeps.refl ..) hrest fun m => by rw [St.after_self rfl]) hok hm
      ⟨fun _ => 1, fun _ => 0, fun _ => 0⟩
    rw [hs.reg, Expr.eval, hnone.1, hnone.2] at hval
    simp at hval
  · intro hb hi hpow hsmall hfits
    obtain ⟨idx, hi'⟩ := Option.isSome_iff_exists.mp hi
    obtain ⟨hsc, hsceq⟩ := scaleByte (e.scale_ne hi) hpow hsmall (hleast hi)
    obtain ⟨s₂, hs₂, ho, hk, hv⟩ := hs.owns.lea none (some idx) _ e.disp fun _ => hsc
    have hsum : c.sumX64 s₁ e dst₁ = .ok (e.disp, s₂) := by
      simp only [Config.sumX64, hi', hb, hpow, hsmall, hfits, Bool.and_self, if_true, hs₂]
      rfl
    have hval :=
      eval_of_sum h hres hs hsum (.of_keeps ho hk hrest fun m => by rw [hv]) hok hm ⟨fun _ => 0,
        fun _ => 0, fun _ => 0⟩
    rw [hs.reg, Expr.eval, hb, hi'] at hval
    simpa using hval
  · intro r hb hi hscale
    refine hstop .undefined ?_
    have hs1 : e.scale = -1 := by
      rw [← sub_neg_eq_add, sub_eq_zero] at hscale
      exact hscale
    have hpow : (isPow2 (-1 : Word) && (-1 : Word).slt 16) = false := by decide +kernel
    have hadd : (-1 : Word) + 1 = 0 := by decide +kernel
    have hzero : isPow2 0 = true := by decide +kernel
    simp only [Config.sumX64, hi, hb, hs1, hpow, Bool.false_eq_true, if_false, if_true, hadd,
      Config.productX64,
      indexTmpX64_self none (by simp), ok_bind, Config.scaleX64, hzero]
    rfl

end

theorem okX64_threefold : threefold.OkX64 := ⟨by decide, by decide, by decide +kernel, by decide +kernel⟩

end Tpde.Values
