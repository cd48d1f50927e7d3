import Tpde.Compiler.BranchInv

/-!
# The values on the edges

Blocks are compiled in one order and run in another. Still, whatever edge a block is
entered by, each value that is live there is where the state before the block says: in its
register, in its stack slot, or the address of a variable (`reaches_homes`). Registers
other than fixed ones are recorded there only where the block that was compiled before is
the only predecessor (`Flow.Sound.start_fixed`); and a value that a block farther away needs
is spilled at the branch that leads there, or was spilled before.
-/

namespace Tpde.Values

open RegMachine

/-- What is known of the blocks `0, …, n - 1`, in the order of the layout: the entry comes
first, and a predecessor of each other block before it; values are defined once, before they
are used; and no value is freed while it is needed. `live t v` says that `v` is needed from
the start of block `t` on. -/
structure Flow.Sound (F : Flow) (n : ℕ) (defBlock : Val → ℕ) (live : ℕ → Val → Prop) (s₀ : St) : Prop where
  inside : ∀ p t, t ∈ F.succs p → t < n ∧ t ≠ 0
  pred : ∀ t, t ≠ 0 → t < n → ∃ p < t, t ∈ F.succs p
  multiple : ∀ p p' t, t ∈ F.succs p → t ∈ F.succs p' → p ≠ p' → F.multipleIncoming t = true
  phi : ∀ t x, x ∈ F.phis t → defBlock x = t ∧ t ≤ F.last x
  self : ∀ p t x, t ∈ F.succs p → x ∈ F.phis t → F.incoming p x = some x → t ≤ p
  define : ∀ p v op, .define v op ∈ F.events p → defBlock v = p
  entry : ∀ v, s₀.val v ≠ none → defBlock v = 0
  start : ∀ v, live 0 v → ∃ a, s₀.val v = some a ∧ a.HasHome
  through : ∀ p t v, t ∈ F.succs p → live t v → v ∉ F.moved p t →
    (live p v ∨ ∃ op, .define v op ∈ F.events p) ∧ defBlock v ≤ p
  last : ∀ p t v, t ∈ F.succs p → live t v → t ≤ F.last v ∧ p ≤ F.last v
  frees : ∀ p v, F.Frees p v → F.last v ≤ p
  uses : ∀ p t v, t ∈ F.succs p → live t v → v ∉ freed (F.events p)
  reads : ∀ p t v, t ∈ F.succs p → live t v → v ∉ F.moved p t → v ∉ (F.targets p).flatMap (F.moveFrees p)
  before : ∀ p t v, t ∈ F.succs p → live t v → ∀ l₁ l₂, F.targets p = l₁ ++ v :: l₂ → v ∉ l₁ →
    v ∉ l₁.flatMap (F.moveFrees p)

/-! ### The states before the blocks -/

section
variable {F : Flow} {c : Config} {s₀ s s' : St} {b b' : ℕ}

theorem Flow.start_succ : F.start c s₀ (b + 1) = .ok s' ↔ ∃ s, F.start c s₀ b = .ok s ∧
    F.compileBlock c s b = .ok s' := by
  rw [Flow.start, bind_eq_ok]

theorem Flow.start_of_le (hb : b ≤ b') (h : F.start c s₀ b' = .ok s') : ∃ s, F.start c s₀ b = .ok s := by
  induction b', hb using Nat.le_induction generalizing s' with
  | base => exact ⟨s', h⟩
  | succ k _ ih =>
    obtain ⟨s, hs, -⟩ := Flow.start_succ.mp h
    exact ih hs

theorem Flow.start_good (hF : F.Fits c.arch) (h₀ : Good c.arch s₀) (h : F.start c s₀ b = .ok s) :
    Good c.arch s := by
  induction b generalizing s with
  | zero => exact Except.ok.inj h ▸ h₀
  | succ b ih =>
    obtain ⟨s₁, hs₁, hok⟩ := Flow.start_succ.mp h
    exact ((ih hs₁).compileBlock hF hok).good

theorem Flow.start_kept (hF : F.Fits c.arch) (h₀ : Good c.arch s₀) (h : F.start c s₀ b = .ok s)
    (h' : F.start c s₀ (b + 1) = .ok s') :
    F.Kept c.arch b s s' := by
  obtain ⟨s₁, hs₁, hok⟩ := Flow.start_succ.mp h'
  obtain rfl := Except.ok.inj (hs₁.symm.trans h)
  exact (Flow.start_good hF h₀ h).compileBlock hF hok

end

section
variable {F : Flow} {c : Config} {n : ℕ} {defBlock : Val → ℕ} {live : ℕ → Val → Prop} {s₀ s s' : St}
    {b b' p t : ℕ} {v : Val} {a : Assignment}

/-- A value that is needed later has its assignment still. -/
theorem Flow.Sound.persists (hS : F.Sound n defBlock live s₀) (hF : F.Fits c.arch) (h₀ : Good c.arch s₀)
    (hb : F.start c s₀ b = .ok s)
    (hle : b ≤ b') (hb' : F.start c s₀ b' = .ok s') (ha : s.val v = some a) (hlast : b' ≤ F.last v) :
    ∃ a', s'.val v = some a' ∧ Grows a a' := by
  induction b', hle using Nat.le_induction generalizing s' with
  | base =>
    obtain rfl := Except.ok.inj (hb.symm.trans hb')
    exact ⟨a, ha, .refl a⟩
  | succ k _ ih =>
    obtain ⟨s₁, hs₁, -⟩ := Flow.start_succ.mp hb'
    obtain ⟨a₁, ha₁, hg₁⟩ := ih hs₁ (by omega)
    obtain ⟨a', ha', hg⟩ := (Flow.start_kept hF h₀ hs₁ hb').keeps v a₁ ha₁ fun hfree => by
      have := hS.frees k v hfree
      omega
    exact ⟨a', ha', hg₁.trans hg⟩

/-- Where the assignments come from. -/
theorem Flow.Sound.origin (hS : F.Sound n defBlock live s₀) (hF : F.Fits c.arch) (h₀ : Good c.arch s₀)
    (hb : F.start c s₀ b = .ok s)
    (hv : s.val v ≠ none) : defBlock v = 0 ∨ defBlock v < b ∨ ∃ p < b, v ∈ F.targets p := by
  induction b generalizing s with
  | zero =>
    obtain rfl := Except.ok.inj hb
    exact .inl (hS.entry v hv)
  | succ b ih =>
    obtain ⟨s₁, hs₁, -⟩ := Flow.start_succ.mp hb
    by_cases hv₁ : s₁.val v = none
    · rcases (Flow.start_kept hF h₀ hs₁ hb).new v hv₁ hv with ⟨op, hop⟩ | hmem
      · exact .inr (.inl (hS.define b v op hop ▸ Nat.lt_succ_self _))
      · exact .inr (.inr ⟨b, Nat.lt_succ_self b, hmem⟩)
    · rcases ih hs₁ hv₁ with h | h | ⟨p, hp, hmem⟩
      · exact .inl h
      · exact .inr (.inl (Nat.lt_succ_of_lt h))
      · exact .inr (.inr ⟨p, Nat.lt_succ_of_lt hp, hmem⟩)

/-- A block whose predecessors are not only the block before has its values in no registers,
but for fixed ones. -/
theorem Flow.Sound.start_fixed (hS : F.Sound n defBlock live s₀) (hF : F.Fits c.arch)
    (h₀ : Good c.arch s₀) (ht : F.start c s₀ t = .ok s)
    (hp : t ∈ F.succs p) (hne : p + 1 ≠ t) {r : Reg} (ha : s.val v = some a) (hr : a.reg = some r) :
      a.fixed := by
  obtain ⟨k, rfl⟩ := Nat.exists_eq_succ_of_ne_zero (hS.inside p t hp).2
  obtain ⟨s₁, hs₁, -⟩ := Flow.start_succ.mp ht
  refine (Flow.start_kept hF h₀ hs₁ ht).fixed ?_ v a r ha hr
  by_contra hm
  obtain ⟨hnext, hmult⟩ := mustSpill_eq_false.mp (by simpa using hm)
  have := hS.multiple p k (k + 1) hp hnext fun heq => hne (by rw [heq])
  rw [Nat.succ_eq_add_one, hmult] at *
  cases this

/-- A phi is in its slot or in a fixed register. -/
theorem Flow.Sound.phi_home (hS : F.Sound n defBlock live s₀) (hF : F.Fits c.arch) (h₀ : Good c.arch s₀)
    (ht : F.start c s₀ t = .ok s)
    (hne : t ≠ 0) (htn : t < n) (hv : v ∈ F.phis t) : ∃ a, s.val v = some a ∧ (a.fixed ∨ a.stackValid) ∧
      a.HasHome := by
  obtain ⟨p, hpt, hsucc⟩ := hS.pred t hne htn
  obtain ⟨s₁', hs₁'⟩ := Flow.start_of_le (Nat.succ_le_of_lt hpt) ht
  obtain ⟨sp, hsp, hok⟩ := Flow.start_succ.mp hs₁'
  obtain ⟨s₁, homes, s₂, he⟩ := Flow.ending (List.ne_nil_of_mem hsucc) hok
  have hg₁ := ((Flow.start_good hF h₀ hsp).events hF he.events).1.good
  have hmoved := (hg₁.spillBeforeBranch (F := F) p).goes.good.moveToPhis hF he.moves
  have hlast := (hS.phi t v hv).2
  have hfree (h : F.Frees p v) : False := by
    have := hS.frees p v h
    omega
  obtain ⟨a, hrec⟩ := hmoved.record v (List.mem_flatMap.mpr ⟨t, hsucc, hv⟩)
  obtain ⟨a₂, ha₂, hs₂⟩ := hrec.keeps fun h => hfree (.inr (.inl h))
  obtain ⟨a', ha', hends⟩ := (he.behind hmoved.goes.good).1.keeps v a₂ ha₂ fun h => hfree (.inr (.inr h))
  obtain ⟨a'', ha'', hgrows⟩ := hS.persists hF h₀ hs₁' (Nat.succ_le_of_lt hpt) ht ha' hlast
  have hG : Grows a a'' := (hs₂.grows.trans hends.grows).trans hgrows
  have hhome : a''.fixed ∨ a''.stackValid := by
    refine ((hrec.home fun hself => ?_).1).imp (fun hf => hG.fixed ▸ hf) hG.stackValid
    have := hS.self p t v hsucc hv hself
    omega
  refine ⟨a'', ha'', hhome, ?_⟩
  rcases hhome with hf | hs
  · exact .inl (Option.isSome_iff_ne_none.mpr ((Flow.start_good hF h₀ ht).regs.fixed v a'' ha'' hf))
  · exact .inr (.inl hs)

/-- What holds before a block: the values that it needs have homes, and where an edge leads
back to it, these are not registers that others may take. -/
def Flow.Ready (F : Flow) (live : ℕ → Val → Prop) (t : ℕ) (s : St) : Prop :=
  ∀ v, live t v → ∃ a, s.val v = some a ∧ a.HasHome ∧ ∀ p, t ≤ p → t ∈ F.succs p → a.stackValid ∨
    a.fixed ∨ a.variableRef

/-- A value that is not moved on an edge, behind the spills: it has its home, and this is not
a register that others may take unless the block that is compiled next relies on it. -/
theorem Flow.Sound.spilled (hS : F.Sound n defBlock live s₀) (hF : F.Fits c.arch) (hg : Good c.arch s)
    (hready : F.Ready live p s) {s₁ s₂ : St}
    {homes : List (Val × Assignment)} (he : F.Ending c p s s₁ homes s₂ s') (ht : t ∈ F.succs p)
    (hv : live t v) (hmv : v ∉ F.moved p t) :
    ∃ a, (F.spillBeforeBranch c s₁ p).2.val v = some a ∧ a.HasHome ∧ (live p v ∨ s.val v = none) ∧
      (∀ b, s.val v = some b → Grows b a) ∧
      (p < t → (t = p + 1 → F.mustSpill p) → a.stackValid ∨ a.fixed ∨ a.variableRef) := by
  obtain ⟨hgo₁, -, hdef⟩ := hg.events hF he.events
  have hfree := hS.uses p t v ht hv
  have h₁ : ∃ a, s₁.val v = some a ∧ a.HasHome ∧ (live p v ∨ s.val v = none) ∧ ∀ b, s.val v = some b →
    Grows b a := by
    rcases (hS.through p t v ht hv hmv).1 with hl | ⟨op, hop⟩
    · obtain ⟨b, hb, hhome, -⟩ := hready v hl
      obtain ⟨a, ha, hgrows⟩ := hgo₁.keeps v b hb hfree
      exact ⟨a, ha, hgrows.home hhome, .inl hl, fun b' hb' => Option.some.inj (hb.symm.trans hb') ▸ hgrows⟩
    · obtain ⟨hnone, a, ha, hhome⟩ := hdef v op hop hfree
      exact ⟨a, ha, hhome, .inr hnone, by simp [hnone]⟩
  obtain ⟨a₁, ha₁, hhome₁, hl, hgrows₁⟩ := h₁
  have hbr : Branched F c.arch p s₁ (F.spillBeforeBranch c s₁ p) := hgo₁.good.spillBeforeBranch p
  obtain ⟨a, ha, hstays⟩ := hbr.goes.keeps v a₁ ha₁ (by simp)
  have hhome := hstays.grows.home hhome₁
  refine ⟨a, ha, hhome, hl, fun b hb => (hgrows₁ b hb).trans hstays.grows, fun hlt hm => ?_⟩
  rcases hhome with hreg | hs | hvar
  · obtain ⟨r, hr⟩ := Option.isSome_iff_exists.mp hreg
    by_cases hf : a.fixed
    · exact .inr (.inl hf)
    · rcases hbr.stored t ht hlt hm v a r ha hr (by simpa using hf) (hS.last p t v ht hv).1 with hs | hvar
      · exact .inl hs
      · exact .inr (.inr hvar)
  · exact .inl hs
  · exact .inr (.inr hvar)

/-- A value that is not moved on an edge keeps its assignment up to the end of the moves. -/
theorem Flow.Sound.stays (hS : F.Sound n defBlock live s₀) {i : List Reg × St} {s₂ : St}
    {homes : List (Val × Assignment)}
    (hmoved : PhisMoved F c.arch p (F.targets p) i.2 homes s₂) (ht : t ∈ F.succs p) (hv : live t v)
    (hmv : v ∉ F.moved p t)
    (ha : i.2.val v = some a) : ∃ a', s₂.val v = some a' ∧ Stays (· ∈ F.targets p) v a a' :=
  hmoved.goes.keeps v a ha (hS.reads p t v ht hv hmv)

/-- From behind the moves of an edge that leads on to the block it leads to. -/
theorem Flow.Sound.forward (hS : F.Sound n defBlock live s₀) (hF : F.Fits c.arch) (h₀ : Good c.arch s₀)
    {s₁ s₂ sp st : St}
    {homes : List (Val × Assignment)} (hp : F.start c s₀ (p + 1) = .ok s')
    (he : F.Ending c p sp s₁ homes s₂ s') (hg : Good c.arch s₂)
    (ht : F.start c s₀ t = .ok st) (hlt : p < t) (hlast : t ≤ F.last v) (ha : s₂.val v = some a) :
    ∃ a', st.val v = some a' ∧ Grows a a' ∧ (t = p + 1 → Ends (· ∈ F.targets p) v a a') := by
  obtain ⟨b, hb, hends⟩ := (he.behind hg).1.keeps v a ha fun hmem => by
    have := hS.frees p v (.inr (.inr hmem))
    omega
  obtain ⟨a', ha', hgrows⟩ := hS.persists hF h₀ hp hlt ht hb hlast
  refine ⟨a', ha', hends.grows.trans hgrows, fun heq => ?_⟩
  subst heq
  obtain rfl := Except.ok.inj (hp.symm.trans ht)
  exact Option.some.inj (hb.symm.trans ha') ▸ hends

/-- **The values that a block needs have homes before it.** -/
theorem Flow.Sound.ready (hS : F.Sound n defBlock live s₀) (hF : F.Fits c.arch) (h₀ : Good c.arch s₀)
    (htn : t < n)
    (ht : F.start c s₀ t = .ok s) : F.Ready live t s := by
  induction t using Nat.strong_induction_on generalizing s with
  | _ t ih =>
    intro v hv
    by_cases hne : t = 0
    · subst hne
      obtain rfl := Except.ok.inj ht
      obtain ⟨a, ha, hhome⟩ := hS.start v hv
      exact ⟨a, ha, hhome, fun p _ hp => absurd rfl (hS.inside p 0 hp).2⟩
    obtain ⟨p, hpt, hsucc⟩ := hS.pred t hne htn
    by_cases hmv : v ∈ F.moved p t
    · obtain ⟨a, ha, hphi, hhome⟩ := hS.phi_home hF h₀ ht hne htn (List.mem_filter.mp hmv).1
      exact ⟨a, ha, hhome, fun _ _ _ => hphi.elim (fun hf => .inr (.inl hf)) .inl⟩
    obtain ⟨s', hs'⟩ := Flow.start_of_le (Nat.succ_le_of_lt hpt) ht
    obtain ⟨sp, hsp, hok⟩ := Flow.start_succ.mp hs'
    obtain ⟨s₁, homes, s₂, he⟩ := Flow.ending (List.ne_nil_of_mem hsucc) hok
    have hgp := Flow.start_good hF h₀ hsp
    obtain ⟨a, ha, hhome, -, -, hspilled⟩ := hS.spilled hF hgp (ih p hpt (hpt.trans htn) hsp) he hsucc hv hmv
    have hbr : Branched F c.arch p s₁ (F.spillBeforeBranch c s₁ p) :=
      (hgp.events hF he.events).1.good.spillBeforeBranch p
    have hmoved := hbr.goes.good.moveToPhis hF he.moves
    obtain ⟨a₂, ha₂, hstays⟩ := hS.stays hmoved hsucc hv hmv ha
    obtain ⟨a', ha', hgrows, -⟩ :=
      hS.forward hF h₀ hs' he hmoved.goes.good ht hpt (hS.last p t v hsucc hv).1 ha₂
    have hG := hstays.grows.trans hgrows
    refine ⟨a', ha', hG.home hhome, fun q hq hqt => ?_⟩
    -- there is another edge into the block, so that the value is spilled on this one
    have hmult := hS.multiple p q t hsucc hqt (by omega)
    refine (hspilled hpt fun heq => ?_).imp hG.stackValid (Or.imp (fun hf => hG.fixed ▸ hf) fun hvar =>
      hG.variableRef ▸ hvar)
    by_contra hm
    rw [heq, (mustSpill_eq_false.mp (by simpa using hm)).2] at hmult
    cases hmult

end

/-! ### The edges -/

/-- Wherever the value is by `a`, it is by `b`. -/
structure Within (a b : Assignment) : Prop where
  bits : a.bits = b.bits
  variableRef : a.variableRef = b.variableRef
  stackVariable : a.stackVariable = b.stackVariable
  frameOff : a.frameOff = b.frameOff
  reg : ∀ r, a.reg = some r → b.reg = some r
  stackValid : a.stackValid → b.stackValid

theorem Home.within {arch : Arch} {m : Machine Val} {σ : Val → Word} {v : Val} {a b : Assignment}
    (h : Home arch m σ v False b)
    (hw : Within a b) (hhome : a.HasHome) : Home arch m σ v False a where
  bits := hw.bits ▸ h.bits
  reg r hr := hw.bits ▸ h.reg r (hw.reg r hr)
  slot hs := hw.bits ▸ h.slot (hw.stackValid hs)
  var hv := h.var (hw.variableRef ▸ hv)
  stackVar hv := hw.frameOff ▸ h.stackVar (hw.stackVariable ▸ hv)
  home _ := hhome

section
variable {F : Flow} {c : Config} {n : ℕ} {defBlock : Val → ℕ} {live : ℕ → Val → Prop} {s₀ sₙ s s' : St}
    {p t : ℕ} {v : Val} {a : Assignment}

/-- **What the block that an edge leads to has of a value that is not moved, the end of the block
before has as well.** -/
theorem Flow.Sound.through_within (hS : F.Sound n defBlock live s₀) (hF : F.Fits c.arch)
    (h₀ : Good c.arch s₀) {s₁ s₂ sp st : St}
    {homes : List (Val × Assignment)} (hpn : p < n) (hsp : F.start c s₀ p = .ok sp)
    (hs' : F.start c s₀ (p + 1) = .ok s')
    (he : F.Ending c p sp s₁ homes s₂ s') (ht : t ∈ F.succs p) (hst : F.start c s₀ t = .ok st)
    (hv : live t v) (hmv : v ∉ F.moved p t)
    {b : Assignment} (hb : (F.spillBeforeBranch c s₁ p).2.val v = some b) (ha : st.val v = some a) :
      Within a b := by
  have hgp := Flow.start_good hF h₀ hsp
  have hgt := Flow.start_good hF h₀ hst
  obtain ⟨b', hb', -, -, hback, hspilled⟩ := hS.spilled hF hgp (hS.ready hF h₀ hpn hsp) he ht hv hmv
  obtain rfl := Option.some.inj (hb.symm.trans hb')
  obtain ⟨htlast, hplast⟩ := hS.last p t v ht hv
  by_cases hle : t ≤ p
  · -- an edge back: the value has kept what it had before
    obtain ⟨ap, hap, hgrows⟩ := hS.persists hF h₀ hst hle hsp ha hplast
    have hG := hgrows.trans (hback ap hap)
    refine ⟨hG.bits.symm, hG.variableRef.symm, hG.stackVariable.symm, hG.frameOff.symm, fun r hr => ?_,
      hG.stackValid⟩
    exact (hG.reg (hS.start_fixed hF h₀ hst ht (by omega) ha hr)).trans hr
  have hlt : p < t := by omega
  have hbr : Branched F c.arch p s₁ (F.spillBeforeBranch c s₁ p) :=
    (hgp.events hF he.events).1.good.spillBeforeBranch p
  have hmoved := hbr.goes.good.moveToPhis hF he.moves
  obtain ⟨b₂, hb₂, hstays⟩ := hS.stays hmoved ht hv hmv hb
  obtain ⟨a', ha', hgrows, hends⟩ := hS.forward hF h₀ hs' he hmoved.goes.good hst hlt htlast hb₂
  obtain rfl := Option.some.inj (ha.symm.trans ha')
  have hG := hstays.grows.trans hgrows
  -- fixed parts and addresses of variables have no slot
  have hslot (hs : a.stackValid) (hhome : b.stackValid ∨ b.fixed ∨ b.variableRef) : b.stackValid := by
    have hsane := hgt.sane v a ha
    rcases hhome with h | hf | hvar
    · exact h
    · simp [(hsane.fixed (hG.fixed ▸ hf)).1] at hs
    · simp [hsane.varRef (hG.variableRef ▸ hvar)] at hs
  refine ⟨hG.bits, hG.variableRef, hG.stackVariable, hG.frameOff, fun r hr => ?_, fun hs => ?_⟩
  · by_cases hnext : t = p + 1
    · exact (hstays.ends.trans (hends hnext)).reg r hr
    · have hf := hS.start_fixed hF h₀ hst ht (by omega) ha hr
      exact (hG.reg (hG.fixed ▸ hf)).symm.trans hr
  · by_cases hnext : t = p + 1
    · rcases (hstays.ends.trans (hends hnext)).stackValid hs with hs' | htarget
      · exact hs'
      -- a phi of another successor was in its slot before
      obtain ⟨t', ht', hphi⟩ := List.mem_flatMap.mp htarget
      have hdef := (hS.through p t v ht hv hmv).2
      rw [(hS.phi t' v hphi).1] at hdef
      obtain ⟨st', hst'⟩ := Flow.start_of_le hdef hsp
      obtain ⟨htn', hne'⟩ := hS.inside p t' ht'
      obtain ⟨x, hx, hphome, -⟩ := hS.phi_home hF h₀ hst' hne' htn' hphi
      obtain ⟨y, hy, hgy⟩ := hS.persists hF h₀ hst' hdef hsp hx hplast
      have hG' := hgy.trans (hback y hy)
      exact hslot hs (hphome.elim (fun hf => .inr (.inl (hG'.fixed ▸ hf))) fun h => .inl (hG'.stackValid h))
    · exact hslot hs (hspilled hlt fun heq => absurd heq hnext)

/-- What the block that an edge leads to has of a phi that is moved to, it had behind the move. -/
theorem Flow.Sound.moved_within (hS : F.Sound n defBlock live s₀) (hF : F.Fits c.arch)
    (h₀ : Good c.arch s₀) {s₁ s₂ sp st : St}
    {homes : List (Val × Assignment)} (hsp : F.start c s₀ p = .ok sp) (hs' : F.start c s₀ (p + 1) = .ok s')
    (he : F.Ending c p sp s₁ homes s₂ s') (ht : t ∈ F.succs p) (hst : F.start c s₀ t = .ok st)
    (hv : live t v) (hmv : v ∈ F.moved p t)
    {b : Assignment} (hb : Recorded F p (F.targets p) (F.spillBeforeBranch c s₁ p).2 homes s₂ v b)
    (ha : st.val v = some a) :
    a.bits = b.bits ∧ a.fixed = b.fixed ∧ a.variableRef = b.variableRef ∧ ∀ r, a.reg = some r →
      b.fixed ∧ b.reg = some r := by
  have hgp := Flow.start_good hF h₀ hsp
  have hevents := hgp.events hF he.events
  have hbr : Branched F c.arch p s₁ (F.spillBeforeBranch c s₁ p) := hevents.1.good.spillBeforeBranch p
  have hmoved := hbr.goes.good.moveToPhis hF he.moves
  obtain ⟨htlast, hplast⟩ := hS.last p t v ht hv
  have hphi := (List.mem_filter.mp hmv).1
  by_cases hle : t ≤ p
  · obtain ⟨ap, hap, hgrows⟩ := hS.persists hF h₀ hst hle hsp ha hplast
    obtain ⟨a₁, ha₁, hgrows₁⟩ := hevents.1.keeps v ap hap (hS.uses p t v ht hv)
    obtain ⟨a₂, ha₂, hstays⟩ := hbr.goes.keeps v a₁ ha₁ (by simp)
    have hG := ((hgrows.trans hgrows₁).trans hstays.grows).trans (hb.old a₂ ha₂ (hS.before p t v ht hv)).grows
    refine ⟨hG.bits.symm, hG.fixed.symm, hG.variableRef.symm, fun r hr => ?_⟩
    have hf := hS.start_fixed hF h₀ hst ht (by omega) ha hr
    exact ⟨hG.fixed ▸ hf, (hG.reg hf).trans hr⟩
  have hlt : p < t := by omega
  obtain ⟨b₂, hb₂, hstays⟩ := hb.keeps fun hmem => by
    have := hS.frees p v (.inr (.inl hmem))
    omega
  obtain ⟨a', ha', hgrows, hends⟩ := hS.forward hF h₀ hs' he hmoved.goes.good hst hlt htlast hb₂
  obtain rfl := Option.some.inj (ha.symm.trans ha')
  have hG := hstays.grows.trans hgrows
  refine ⟨hG.bits, hG.fixed, hG.variableRef, fun r hr => ?_⟩
  have hfix : a.fixed := by
    by_cases hnext : t = p + 1
    · subst hnext
      by_cases hm : F.mustSpill p
      · exact (Flow.start_kept hF h₀ hsp hs').fixed hm v a r (by rwa [Except.ok.inj (hs'.symm.trans hst)]) hr
      -- the phi is new here, as no other block moves to it
      by_contra hf
      have hbreg := (hstays.ends.trans (hends rfl)).reg r hr
      have hnone : sp.val v = none := by
        by_contra hsome
        have hdefv := (hS.phi (p + 1) v hphi).1
        rcases hS.origin hF h₀ hsp hsome with h | h | ⟨q, hq, hmem⟩
        · omega
        · omega
        · obtain ⟨t', ht', hphi'⟩ := List.mem_flatMap.mp hmem
          rw [(hS.phi t' v hphi').1] at hdefv
          subst hdefv
          have hmult := hS.multiple p q _ ht ht' (by omega)
          rw [(mustSpill_eq_false.mp (by simpa using hm)).2] at hmult
          cases hmult
      have hnone₁ : s₁.val v = none := by
        refine (hevents.2.1 v hnone).resolve_right fun ⟨op, hop⟩ => ?_
        have := hS.define p v op hop
        have := (hS.phi (p + 1) v hphi).1
        omega
      have := hb.new (hbr.none v hnone₁) (by rw [← hG.fixed]; simpa using hf)
      rw [this] at hbreg
      cases hbreg
    · exact hS.start_fixed hF h₀ hst ht (by omega) ha hr
  exact ⟨hG.fixed ▸ hfix, (hG.reg (hG.fixed ▸ hfix)).symm.trans hr⟩

/-- **An edge leads to the homes**: if the values that a block needs are in their homes, then so
are, behind each edge, those that the next block needs. -/
theorem Flow.Sound.edge (hS : F.Sound n defBlock live s₀) (hF : F.Fits c.arch) (h₀ : Good c.arch s₀)
    (hn : F.start c s₀ n = .ok sₙ)
    {sp st : St} {m m' : Machine Val} {σ σ' : Val → Word} (hpn : p < n) (hsp : F.start c s₀ p = .ok sp)
    (hst : F.start c s₀ t = .ok st)
    (hedge : F.Edge c sp p t m m' σ σ') (hhomes : ∀ v a, live p v → sp.val v = some a →
      Home c.arch m σ v False a) :
    ∀ v a, live t v → st.val v = some a → Home c.arch m' σ' v False a := by
  have ht := hedge.succ
  obtain ⟨s', hs'⟩ := Flow.start_of_le (Nat.succ_le_of_lt hpn) hn
  obtain ⟨sp', hsp', hok⟩ := Flow.start_succ.mp hs'
  obtain rfl := Except.ok.inj (hsp.symm.trans hsp')
  obtain ⟨s₁, homes, s₂, he⟩ := Flow.ending (List.ne_nil_of_mem ht) hok
  obtain ⟨s₁', m₁, σ₁, homes', s₂', hrun, hmoves, hM⟩ := hedge.run
  have hgp := Flow.start_good hF h₀ hsp
  obtain ⟨hfold, hcarry⟩ := hgp.runEvents hF hrun
  obtain rfl := Except.ok.inj (he.events.symm.trans hfold)
  obtain ⟨rfl, rfl⟩ := Prod.mk.inj (Except.ok.inj (he.moves.symm.trans hmoves))
  have hbr : Branched F c.arch p s₁ (F.spillBeforeBranch c s₁ p) :=
    (hgp.events hF he.events).1.good.spillBeforeBranch p
  have hmoved := hbr.goes.good.moveToPhis hF he.moves
  -- behind the spills, for the values that come into the block and those that are new in it
  have hbefore := hbr.carries _ _ _ (hcarry (fun v => live p v ∨ sp.val v = none) fun v a hl ha =>
    hhomes v a (hl.resolve_right (by simp [ha])) ha)
  intro v a hv ha
  obtain ⟨htn, htne⟩ := hS.inside p t ht
  have hhome : a.HasHome := by
    obtain ⟨a', ha', hhome, -⟩ := hS.ready hF h₀ htn hst v hv
    exact Option.some.inj (ha.symm.trans ha') ▸ hhome
  by_cases hmv : v ∈ F.moved p t
  · obtain ⟨hphi, hne⟩ := List.mem_filter.mp hmv
    obtain ⟨b, hb⟩ := hmoved.record v (List.mem_flatMap.mpr ⟨t, ht, hphi⟩)
    obtain ⟨hbits, hfixed, hvar, hreg⟩ := hS.moved_within hF h₀ hsp hs' he ht hst hv hmv hb ha
    obtain ⟨-, hbvar⟩ := hb.home (by simpa using hne)
    have hsane := (Flow.start_good hF h₀ hst).sane v a ha
    have hnovar : a.variableRef = false := hvar.trans hbvar
    refine ⟨hsane.bits, fun r hr => ?_, fun hs => ?_, by simp [hnovar], fun hs => ?_, fun _ => hhome⟩
    · obtain ⟨hf, hbr'⟩ := hreg r hr
      exact hbits ▸ hM.fixed _ hb.mem hmv hf r hbr'
    · have hf : b.fixed = false := by
        by_contra hf
        simp [(hsane.fixed (hfixed.trans (by simpa using hf))).1] at hs
      exact hbits ▸ hM.stack _ hb.mem hmv hf
    · simp [hsane.stackVariable hs] at hnovar
  · obtain ⟨b, hb, -, hl, -, -⟩ := hS.spilled hF hgp (hS.ready hF h₀ hpn hsp) he ht hv hmv
    have hw := hS.through_within hF h₀ hpn hsp hs' he ht hst hv hmv hb ha
    have hB := hbefore v b hl hb
    obtain ⟨b₂, hb₂, hstays⟩ := hS.stays hmoved ht hv hmv hb
    have hσ : σ' v = σ₁ v := hM.same v hmv
    -- the registers of the value are in use during the moves, and no phi has them
    have hregs (r : Reg) (hr : b.reg = some r) :
      m'.reg r = (s₁.after (F.spillBeforeBranch c s₁ p).2 m₁).reg r := by
      refine hM.reg r ?_ fun h hh hmem _ hhr => ?_
      · simp [hmoved.goes.good.regs.used_eq hb₂ (hstays.reg ▸ hr)]
      · rw [hmoved.apart h hh v b r hb hr (hS.reads p t v ht hv hmv) hhr] at hmem
        exact hmv hmem
    have hB' : Home c.arch m' σ' v False b := by
      refine ⟨hB.bits, fun r hr => ?_, fun hs => ?_, fun hvar => ?_, fun hs => ?_, hB.home⟩
      · rw [hregs r hr, hσ]
        exact hB.reg r hr
      · rw [hM.slot v hmv, hσ]
        exact hB.slot hs
      · rw [hM.addr, hσ]
        exact hB.var hvar
      · rw [hM.framePtr, hσ]
        exact hB.stackVar hs
    exact hB'.within hw hhome

/-- **The values are where the compiler says, whatever way the function runs.** On every run, when a
block is entered, each value that it needs has an assignment in the state that the block is
compiled from, and is in every place that this says. -/
theorem reaches_homes (hS : F.Sound n defBlock live s₀) (hF : F.Fits c.arch) (h₀ : Good c.arch s₀)
    (hpos : 0 < n)
    (hn : F.start c s₀ n = .ok sₙ) {m₀ m : Machine Val} {σ₀ σ : Val → Word}
    (hentry : ∀ v a, live 0 v → s₀.val v = some a → Home c.arch m₀ σ₀ v False a)
    (hrun : F.Reaches c s₀ m₀ σ₀ t m σ) :
    ∃ s, F.start c s₀ t = .ok s ∧ ∀ v, live t v → ∃ a, s.val v = some a ∧ Home c.arch m σ v False a := by
  have hall : t < n ∧ ∀ s, F.start c s₀ t = .ok s → ∀ v a, live t v → s.val v = some a →
    Home c.arch m σ v False a := by
    induction hrun with
    | entry => exact ⟨hpos, fun s hs v a hv ha => hentry v a hv (Except.ok.inj hs ▸ ha)⟩
    | edge _ hs he ih =>
      refine ⟨(hS.inside _ _ he.succ).1, fun st hst => ?_⟩
      exact hS.edge hF h₀ hn ih.1 hs hst he fun v a => ih.2 _ hs v a
  obtain ⟨htn, hhomes⟩ := hall
  obtain ⟨s, hs⟩ := Flow.start_of_le htn.le hn
  refine ⟨s, hs, fun v hv => ?_⟩
  obtain ⟨a, ha, -⟩ := hS.ready hF h₀ htn hs v hv
  exact ⟨a, ha, hhomes s hs v a hv ha⟩

end

/-! ### A loop -/

/-- A loop whose head has a phi: it starts with value 0, goes on with value 2, and is used behind
the loop. -/
def countLoop : Flow where
  succs p := if p = 0 then [1] else if p = 1 then [1, 2] else []
  multipleIncoming t := t == 1
  phis t := if t = 1 then [1] else []
  incoming p x := if x = 1 then some (if p = 0 then 0 else 2) else none
  events p :=
    if p = 0 then [.define 0 (.movImm 5)] else if p = 1 then [.load 1, .define 2 (.addImm 1 1)]
      else if p = 2 then [.free 1] else []
  moveFrees p _ := if p = 0 then [0] else if p = 1 then [2] else []
  delayedFrees _ := []
  last v := if v = 0 then 0 else if v = 1 then 2 else 1
  lastFull _ := false
  refCount _ := 1
  bits _ := 64
  fixedReg _ _ := none

/-- Nothing is in use. -/
def noValues : St := ⟨fun _ => none, fun _ => 0, fun _ => none, 0, []⟩

/-- The phi is needed in the loop and behind it. -/
def countLive (t : ℕ) (v : Val) : Prop := (t = 1 ∨ t = 2) ∧ v = 1

def countDef (v : Val) : ℕ := if v = 0 then 0 else 1

theorem good_noValues (arch : Arch) : Good arch noValues := by
  refine ⟨⟨?_, ?_, ?_, ?_, ?_, ?_, ?_, ?_⟩, ?_⟩ <;> simp [noValues, St.regOf, St.fixedLock]

theorem countLoop_succs {p t : ℕ} (h : t ∈ countLoop.succs p) : p = 0 ∧ t = 1 ∨ p = 1 ∧ t = 1 ∨ p = 1 ∧
    t = 2 := by
  simp only [countLoop] at h
  split_ifs at h <;> simp_all

theorem countLoop_sound : countLoop.Sound 3 countDef countLive noValues where
  inside p t h := by rcases countLoop_succs h with ⟨rfl, rfl⟩ | ⟨rfl, rfl⟩ | ⟨rfl, rfl⟩ <;> decide
  pred t h ht := by
    obtain rfl | rfl : t = 1 ∨ t = 2 := by omega
    · exact ⟨0, by decide, by decide⟩
    · exact ⟨1, by decide, by decide⟩
  multiple p p' t h h' hne := by
    rcases countLoop_succs h with ⟨rfl, rfl⟩ | ⟨rfl, rfl⟩ | ⟨rfl, rfl⟩
    · rfl
    · rfl
    · rcases countLoop_succs h' with ⟨_, h2⟩ | ⟨_, h2⟩ | ⟨rfl, _⟩
      · cases h2
      · cases h2
      · exact absurd rfl hne
  phi t x h := by
    obtain ⟨rfl, rfl⟩ : t = 1 ∧ x = 1 := by simpa [countLoop] using h
    decide
  self p t x h hx heq := by
    obtain ⟨rfl, rfl⟩ : t = 1 ∧ x = 1 := by simpa [countLoop] using hx
    rcases countLoop_succs h with ⟨rfl, -⟩ | ⟨rfl, -⟩ | ⟨rfl, -⟩ <;> cases heq
  define p v op h := by
    simp only [countLoop] at h
    split_ifs at h <;> simp_all [countDef]
  entry v h := absurd rfl h
  start v h := by simp [countLive] at h
  through p t v h hv hm := by
    obtain ⟨-, rfl⟩ := hv
    rcases countLoop_succs h with ⟨rfl, rfl⟩ | ⟨rfl, rfl⟩ | ⟨rfl, rfl⟩
    · exact absurd (by decide) hm
    · exact absurd (by decide) hm
    · exact ⟨.inl ⟨.inl rfl, rfl⟩, by decide⟩
  last p t v h hv := by
    obtain ⟨-, rfl⟩ := hv
    rcases countLoop_succs h with ⟨rfl, rfl⟩ | ⟨rfl, rfl⟩ | ⟨rfl, rfl⟩ <;> decide
  frees p v h := by
    simp only [Flow.Frees, Flow.targets, freed, countLoop] at h
    split_ifs at h <;> simp_all [countLoop]
  uses p t v h hv := by
    rcases countLoop_succs h with ⟨rfl, rfl⟩ | ⟨rfl, rfl⟩ | ⟨rfl, rfl⟩ <;> simp [freed, countLoop]
  reads p t v h hv hm := by
    obtain ⟨-, rfl⟩ := hv
    rcases countLoop_succs h with ⟨rfl, rfl⟩ | ⟨rfl, rfl⟩ | ⟨rfl, rfl⟩ <;> decide
  before p t v h _ l₁ l₂ hl hv₁ := by
    have hone : countLoop.targets p = [1] := by
      rcases countLoop_succs h with ⟨rfl, rfl⟩ | ⟨rfl, rfl⟩ | ⟨rfl, rfl⟩ <;> decide
    rw [hone] at hl
    obtain rfl : l₁ = [] := by
      have := congrArg List.length hl
      simp at this
      exact List.length_eq_zero_iff.mp (by omega)
    simp

/-- The compiler as it compiles the loop. -/
def countConfig : Config := ⟨.x64, fun _ => false, fun _ => 0, fun _ => none⟩

theorem countLoop_compiles : ∃ s, countLoop.start countConfig noValues 3 = .ok s := by
  have h : (countLoop.start countConfig noValues 3).toOption.isSome := by decide +kernel
  revert h
  cases countLoop.start countConfig noValues 3 with
  | ok s => exact fun _ => ⟨s, rfl⟩
  | error e => simp [Except.toOption]

/-- The phi behind the move into the loop. -/
def countPhi : Assignment := ⟨64, none, true, false, false, false, 0, false, false, 1⟩

/-- The loop is entered: the phi is in its slot. -/
theorem reaches_homes_countLoop : ∃ m σ,
    countLoop.Reaches countConfig noValues ⟨fun _ => 0, fun _ => 0, fun _ => 0⟩ (fun _ => 0) 1 m σ ∧
    ∃ s, countLoop.start countConfig noValues 1 = .ok s ∧ ∃ a, s.val 1 = some a ∧
      Home countConfig.arch m σ 1 False a := by
  have hF : countLoop.Fits countConfig.arch := ⟨fun _ => le_rfl, by simp [countLoop]⟩
  obtain ⟨s₃, hs₃⟩ := countLoop_compiles
  -- the phi gets some number
  have hmoves (s : St) (m : Machine Val) (σ : Val → Word) : Moves countConfig.arch s [(1, countPhi)] [1] m
      ⟨m.reg, Function.update m.slot 1 5, m.addr⟩ σ (Function.update σ 1 5) := by
    refine ⟨rfl, rfl, fun _ _ _ => rfl, fun v hv => Function.update_of_ne (by simpa using hv) ..,
      fun v hv => Function.update_of_ne (by simpa using hv) ..,
      ?_, ?_⟩ <;> simp [countPhi, Agree]
  have hrun : ∃ m σ,
    countLoop.Reaches countConfig noValues ⟨fun _ => 0, fun _ => 0, fun _ => 0⟩ (fun _ => 0) 1 m σ :=
    ⟨_, _, .edge .entry rfl ⟨by decide, _, _, _, [(1, countPhi)], _, rfl, rfl, hmoves _ _ _⟩⟩
  obtain ⟨m, σ, hreach⟩ := hrun
  obtain ⟨s, hs, hlive⟩ :=
    reaches_homes countLoop_sound hF (good_noValues _) (by decide) hs₃
      (fun v a hv => by simp [countLive] at hv) hreach
  exact ⟨m, σ, hreach, s, hs, hlive 1 ⟨.inl rfl, rfl⟩⟩

end Tpde.Values
