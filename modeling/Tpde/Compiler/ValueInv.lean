import Tpde.Compiler.Values

/-!
# What the operations on values keep

The invariant of `Tpde.Compiler.Values` and one lemma for each operation.
-/

namespace Tpde.Values

open RegMachine

/-- The register of a part. -/
def St.regOf (s : St) (v : Val) : Option Reg := (s.val v).bind (·.reg)

theorem St.regOf_eq {s : St} {v : Val} {a : Assignment} (ha : s.val v = some a) :
    s.regOf v = a.reg := by simp [St.regOf, ha]

/-- The lock of a fixed assignment. -/
def St.fixedLock (s : St) (r : Reg) : ℕ :=
  match s.used r with
  | some (some v) => if (s.val v).any (·.fixed) then 1 else 0
  | _ => 0

theorem St.fixedLock_free {s : St} {r : Reg} (hu : s.used r = none) :
    s.fixedLock r = 0 := by simp [fixedLock, hu]

theorem St.fixedLock_temp {s : St} {r : Reg} (hu : s.used r = some none) :
    s.fixedLock r = 0 := by simp [fixedLock, hu]

/-- The register file fits the assignments, and its locks are those of fixed assignments
and the `held` ones. -/
structure Regs (arch : Arch) (s : St) (held : Multiset Reg) : Prop where
  owner : ∀ r v, s.used r = some (some v) ↔ s.regOf v = some r
  usable : ∀ r, s.used r ≠ none → r ∈ arch.allocatable
  locks : ∀ r, s.locks r = held.count r + s.fixedLock r
  temp : ∀ r, s.used r = some none → held.count r = 1
  used : ∀ r ∈ held, s.used r ≠ none
  fixed : ∀ v a, s.val v = some a → a.fixed → a.reg ≠ none
  fixedCount : (arch.allocatable.filter fun r => s.fixedLock r ≠ 0).length ≤ s.fixedCount
  fixedMost : s.fixedCount ≤ 5

/-- The value of a part that is not `gone` is somewhere, and wherever it is, its bits are those of `σ`. -/
structure Home (arch : Arch) (m : Machine Val) (σ : Val → Word) (v : Val) (gone : Prop)
    (a : Assignment) : Prop where
  bits : a.bits ≤ 64
  reg : ∀ r, a.reg = some r → Agree a.bits (m.reg r) (σ v)
  slot : a.stackValid → Agree a.bits (m.slot v) (σ v)
  var : a.variableRef → m.addr v = σ v
  stackVar : a.stackVariable → m.reg arch.framePtr + a.frameOff = σ v
  home : ¬ gone → a.reg.isSome ∨ a.stackValid ∨ a.variableRef

/-- Every value has its home. -/
def Homes (arch : Arch) (s : St) (m : Machine Val) (σ : Val → Word) (gone : Val → Prop) : Prop :=
  ∀ v a, s.val v = some a → Home arch m σ v (gone v) a

theorem framePtr_not_mem (arch : Arch) : arch.framePtr ∉ arch.allocatable := by cases arch <;> decide

theorem nodup_allocatable (arch : Arch) : arch.allocatable.Nodup := by cases arch <;> decide

section
variable {arch : Arch} {s s' : St} {held : Multiset Reg} {m m' : Machine Val} {σ : Val →
    Word} {gone : Val → Prop}

theorem Regs.used_eq (h : Regs arch s held) {v : Val} {a : Assignment} {r : Reg} (ha : s.val v = some a)
    (hr : a.reg = some r) :
    s.used r = some (some v) := (h.owner r v).mpr ((St.regOf_eq ha).trans hr)

theorem Regs.fixedLock_eq (h : Regs arch s held) {v : Val} {a : Assignment} {r : Reg}
    (ha : s.val v = some a) (hr : a.reg = some r) :
    s.fixedLock r = if a.fixed then 1 else 0 := by
  simp [St.fixedLock, h.used_eq ha hr, ha]

/-- The state after an eviction. -/
def St.evicted (s : St) (r : Reg) (v : Val) (a : Assignment) : St where
  used := Function.update s.used r none
  locks := s.locks
  val := Function.update s.val v (some { a with stackValid := a.stackValid || !a.variableRef, reg := none })
  fixedCount := s.fixedCount
  code := s.code ++ if !a.stackValid && !a.variableRef then [.spill v r a.bits] else []

theorem evictReg_eq {r : Reg} {v : Val} {a : Assignment} (hu : s.used r = some (some v))
    (hlock : s.locks r = 0)
    (ha : s.val v = some a) (hr : a.reg = some r) : s.evictReg r = .ok (s.evicted r v a) := by
  cases hs : (!a.stackValid && !a.variableRef) <;>
    simp [St.evictReg, St.spill, St.unmarkUsed, St.setVal, St.emit, St.emits, St.evicted, hu, hlock,
      ha, hr, hs]

theorem Regs.evicted {r : Reg} {v : Val} {a : Assignment} (h : Regs arch s held) (hlock : s.locks r = 0)
    (ha : s.val v = some a) (hr : a.reg = some r) : Regs arch (s.evicted r v a) held := by
  have hfl : s.fixedLock r = 0 := by have := h.locks r; omega
  have hnf : a.fixed = false := by
    have := h.fixedLock_eq ha hr
    grind
  have howner := h.owner
  have hv := St.regOf_eq ha
  have hused : ∀ x, (s.evicted r v a).used x = if x = r then none else s.used x :=
    fun x => Function.update_apply ..
  have hval : ∀ x, (s.evicted r v a).val x = if x = v then
    some { a with stackValid := a.stackValid || !a.variableRef, reg := none }
      else s.val x := fun x => Function.update_apply ..
  have hreg : ∀ x, (s.evicted r v a).regOf x = if x = v then none else s.regOf x := by
    intro x
    rw [St.regOf, hval]
    split <;> rfl
  have hlockEq : ∀ r', (s.evicted r v a).fixedLock r' = s.fixedLock r' := by
    intro r'
    simp only [St.fixedLock, hused, hval]
    grind [St.fixedLock]
  have hu := h.used_eq ha hr
  constructor
  · intro r' w
    have hw := howner r' w
    rw [hused, hreg]
    grind
  · intro r' hr'
    have := h.usable r'
    grind
  · intro r'
    rw [hlockEq]
    exact h.locks r'
  · intro r' hr'
    have := h.temp r'
    grind
  · intro r' hmem
    have hne : r' ≠ r := by
      rintro rfl
      have := Multiset.count_pos.mpr hmem
      have := h.locks r'
      omega
    rw [hused, if_neg hne]
    exact h.used r' hmem
  · intro w b hb
    have := h.fixed w b
    grind
  · simp only [hlockEq]
    exact h.fixedCount
  · exact h.fixedMost

theorem Regs.not_mem (h : Regs arch s held) {r : Reg} (hu : s.used r = none) : r ∉ held :=
  fun hmem => h.used r hmem hu

theorem Regs.locks_free (h : Regs arch s held) {r : Reg} (hu : s.used r = none) : s.locks r = 0 := by
  rw [h.locks, Multiset.count_eq_zero_of_notMem (h.not_mem hu), St.fixedLock_free hu]

theorem Regs.locks_temp (h : Regs arch s held) {r : Reg} (hu : s.used r = some none) : s.locks r = 1 := by
  rw [h.locks, h.temp r hu, St.fixedLock_temp hu]

/-- A scratch register is taken. -/
theorem Regs.scratch {r : Reg} (h : Regs arch s held) (hr : r ∈ arch.allocatable) (hu : s.used r = none)
    (hused : s'.used = Function.update s.used r (some none)) (hlocks : s'.locks = Function.update s.locks r 1)
    (hval : s'.val = s.val) (hcount : s'.fixedCount = s.fixedCount) : Regs arch s' (r ::ₘ held) := by
  have hused : ∀ x, s'.used x = if x = r then some none else s.used x :=
    fun x => by rw [hused, Function.update_apply]
  have hlockEq : ∀ r', s'.fixedLock r' = s.fixedLock r' := by
    intro r'
    simp only [St.fixedLock, hused, hval]
    grind [St.fixedLock]
  constructor
  · intro r' w
    have hw := h.owner r' w
    rw [hused, St.regOf, hval]
    grind [St.regOf]
  · intro r' hr'
    have := h.usable r'
    grind
  · intro r'
    rw [hlockEq, hlocks, Function.update_apply]
    split
    · rename_i heq
      rw [heq, Multiset.count_cons_self, Multiset.count_eq_zero_of_notMem (h.not_mem hu),
        St.fixedLock_free hu]
    · rw [Multiset.count_cons_of_ne ‹_›, h.locks r']
  · intro r' hr'
    rw [hused] at hr'
    split at hr'
    · rename_i heq
      rw [heq, Multiset.count_cons_self, Multiset.count_eq_zero_of_notMem (h.not_mem hu)]
    · rw [Multiset.count_cons_of_ne ‹_›]
      exact h.temp r' hr'
  · intro r' hmem
    have := h.used r'
    rw [hused]
    grind
  · intro w b hb
    rw [hval] at hb
    exact h.fixed w b hb
  · simp only [hlockEq, hcount]
    exact h.fixedCount
  · rw [hcount]
    exact h.fixedMost

/-- A scratch register is given back. -/
theorem Regs.unscratch {r : Reg} (h : Regs arch s (r ::ₘ held)) (hu : s.used r = some none)
    (hused : s'.used = Function.update s.used r none) (hlocks : s'.locks = Function.update s.locks r 0)
    (hval : s'.val = s.val) (hcount : s'.fixedCount = s.fixedCount) : Regs arch s' held := by
  have hused : ∀ x, s'.used x = if x = r then none else s.used x :=
    fun x => by rw [hused, Function.update_apply]
  have hcountr : held.count r = 0 := by simpa using h.temp r hu
  have hlockEq : ∀ r', s'.fixedLock r' = s.fixedLock r' := by
    intro r'
    simp only [St.fixedLock, hused, hval]
    grind [St.fixedLock]
  constructor
  · intro r' w
    have hw := h.owner r' w
    rw [hused, St.regOf, hval]
    grind [St.regOf]
  · intro r' hr'
    have := h.usable r'
    grind
  · intro r'
    rw [hlockEq, hlocks, Function.update_apply]
    split
    · rename_i heq
      rw [heq, hcountr, St.fixedLock_temp hu]
    · rw [h.locks r', Multiset.count_cons_of_ne ‹_›]
  · intro r' hr'
    have := h.temp r'
    grind [Multiset.count_cons_of_ne]
  · intro r' hmem
    have := h.used r' (Multiset.mem_cons_of_mem hmem)
    have := Multiset.count_pos.mpr hmem
    rw [hused]
    grind
  · intro w b hb
    rw [hval] at hb
    exact h.fixed w b hb
  · simp only [hlockEq, hcount]
    exact h.fixedCount
  · rw [hcount]
    exact h.fixedMost

/-- A register of a value is locked. -/
theorem Regs.lock {r : Reg} {v : Val} (h : Regs arch s held) (hu : s.used r = some (some v))
    (hused : s'.used = s.used)
    (hlocks : s'.locks = Function.update s.locks r (s.locks r + 1)) (hval : s'.val = s.val)
    (hcount : s'.fixedCount = s.fixedCount) : Regs arch s' (r ::ₘ held) := by
  have hlockEq : ∀ r', s'.fixedLock r' = s.fixedLock r' := fun r' => by simp only [St.fixedLock, hused, hval]
  refine ⟨?_, ?_, ?_, ?_, ?_, ?_, ?_, ?_⟩
  · simpa only [St.regOf, hused, hval] using h.owner
  · simpa only [hused] using h.usable
  · intro r'
    rw [hlockEq, hlocks, Function.update_apply]
    split
    · rename_i heq
      rw [heq, Multiset.count_cons_self, h.locks r]
      omega
    · rw [Multiset.count_cons_of_ne ‹_›, h.locks r']
  · intro r' hr'
    rw [hused] at hr'
    have hne : r' ≠ r := by rintro rfl; simp [hu] at hr'
    rw [Multiset.count_cons_of_ne hne]
    exact h.temp r' hr'
  · intro r' hmem
    have := h.used r'
    rw [hused]
    grind
  · simpa only [hval] using h.fixed
  · simp only [hlockEq, hcount]
    exact h.fixedCount
  · rw [hcount]
    exact h.fixedMost

/-- A register of a value is unlocked. -/
theorem Regs.unlock {r : Reg} {v : Val} (h : Regs arch s (r ::ₘ held)) (hu : s.used r = some (some v))
    (hused : s'.used = s.used)
    (hlocks : s'.locks = Function.update s.locks r (s.locks r - 1)) (hval : s'.val = s.val)
    (hcount : s'.fixedCount = s.fixedCount) : Regs arch s' held := by
  have hlockEq : ∀ r', s'.fixedLock r' = s.fixedLock r' := fun r' => by simp only [St.fixedLock, hused, hval]
  refine ⟨?_, ?_, ?_, ?_, ?_, ?_, ?_, ?_⟩
  · simpa only [St.regOf, hused, hval] using h.owner
  · simpa only [hused] using h.usable
  · intro r'
    rw [hlockEq, hlocks, Function.update_apply]
    split
    · rename_i heq
      rw [heq, h.locks r, Multiset.count_cons_self]
      omega
    · rw [h.locks r', Multiset.count_cons_of_ne ‹_›]
  · intro r' hr'
    rw [hused] at hr'
    have hne : r' ≠ r := by rintro rfl; simp [hu] at hr'
    rw [← Multiset.count_cons_of_ne hne]
    exact h.temp r' hr'
  · intro r' hmem
    rw [hused]
    exact h.used r' (Multiset.mem_cons_of_mem hmem)
  · simpa only [hval] using h.fixed
  · simp only [hlockEq, hcount]
    exact h.fixedCount
  · rw [hcount]
    exact h.fixedMost

/-- A part without a register gets a free one. -/
theorem Regs.place {r : Reg} {v : Val} {a : Assignment} (h : Regs arch s held)
    (hr : r ∈ arch.allocatable) (hu : s.used r = none)
    (ha : s.val v = some a) (hnone : a.reg = none)
    (hused : s'.used = Function.update s.used r (some (some v)))
    (hlocks : s'.locks = s.locks) (hval : s'.val = Function.update s.val v (some { a with reg := some r }))
    (hcount : s'.fixedCount = s.fixedCount) : Regs arch s' held := by
  have hused : ∀ x, s'.used x = if x = r then some (some v) else s.used x :=
    fun x => by rw [hused, Function.update_apply]
  have hval : ∀ x, s'.val x = if x = v then some { a with reg := some r } else s.val x :=
    fun x => by rw [hval, Function.update_apply]
  have hreg : ∀ x, s'.regOf x = if x = v then some r else s.regOf x := by
    intro x
    rw [St.regOf, hval]
    split <;> rfl
  have hv : s.regOf v = none := (St.regOf_eq ha).trans hnone
  have hnf : a.fixed = false := by
    have := h.fixed v a ha
    grind
  have hlockEq : ∀ r', s'.fixedLock r' = s.fixedLock r' := by
    intro r'
    simp only [St.fixedLock, hused, hval]
    have := h.owner r' v
    grind
  constructor
  · intro r' w
    have hw := h.owner r' w
    rw [hused, hreg]
    have := h.owner r w
    grind
  · intro r' hr'
    have := h.usable r'
    grind
  · intro r'
    rw [hlockEq, hlocks]
    exact h.locks r'
  · intro r' hr'
    have := h.temp r'
    grind
  · intro r' hmem
    have := h.used r' hmem
    rw [hused]
    grind
  · intro w b hb
    have := h.fixed w b
    grind
  · simp only [hlockEq, hcount]
    exact h.fixedCount
  · rw [hcount]
    exact h.fixedMost

/-- A part loses its register, which is free then or a scratch register. -/
theorem Regs.vacate {r : Reg} {v : Val} {a : Assignment} {o : Option (Option Val)}
    {x : Option Assignment} {held' : Multiset Reg}
    (h : Regs arch s held) (ha : s.val v = some a) (hr : a.reg = some r) (hnot : r ∉ held)
    (ho : o = none ∧ s'.locks = Function.update s.locks r 0 ∧ held' = held ∨
      o = some none ∧ s'.locks = Function.update s.locks r 1 ∧ held' = r ::ₘ held)
    (hx : ∀ b, x = some b → b.reg = none ∧ b.fixed = false) (hused : s'.used = Function.update s.used r o)
    (hval : s'.val = Function.update s.val v x) (hcount : s.fixedCount - (if a.fixed then 1 else 0) ≤
      s'.fixedCount)
    (hmost : s'.fixedCount ≤ s.fixedCount) : Regs arch s' held' := by
  have hu := h.used_eq ha hr
  have hv := (St.regOf_eq ha).trans hr
  have hcnt : held.count r = 0 := Multiset.count_eq_zero_of_notMem hnot
  have hused : ∀ y, s'.used y = if y = r then o else s.used y := fun y => by rw [hused, Function.update_apply]
  have hval : ∀ y, s'.val y = if y = v then x else s.val y := fun y => by rw [hval, Function.update_apply]
  have hreg : ∀ y, s'.regOf y = if y = v then none else s.regOf y := by
    intro y
    rw [St.regOf, hval]
    split
    · cases x with
      | none => rfl
      | some b => exact (hx b rfl).1
    · rfl
  have hlockEq : ∀ r', s'.fixedLock r' = if r' = r then 0 else s.fixedLock r' := by
    intro r'
    have hown := h.owner r' v
    simp only [St.fixedLock, hused, hval]
    grind
  have hheld : ∀ r', r' ≠ r → held'.count r' = held.count r' := by
    intro r' hne
    rcases ho with ⟨-, -, rfl⟩ | ⟨-, -, rfl⟩
    · rfl
    · exact Multiset.count_cons_of_ne hne _
  constructor
  · intro r' w
    have hw := h.owner r' w
    have hw' := h.owner r w
    rw [hused, hreg]
    grind
  · intro r' hr'
    have := h.usable r'
    have := h.usable r
    grind
  · intro r'
    rw [hlockEq]
    rcases ho with ⟨-, hlocks, rfl⟩ | ⟨-, hlocks, rfl⟩ <;> rw [hlocks, Function.update_apply]
    · split
      · rename_i heq
        rw [heq, hcnt]
      · exact h.locks r'
    · split
      · rename_i heq
        rw [heq, Multiset.count_cons_self, hcnt]
      · rw [Multiset.count_cons_of_ne ‹_›]
        exact h.locks r'
  · intro r' hr'
    by_cases heq : r' = r
    · subst heq
      rcases ho with ⟨rfl, -, rfl⟩ | ⟨-, -, rfl⟩
      · simp [hused] at hr'
      · rw [Multiset.count_cons_self, hcnt]
    · rw [hheld r' heq]
      exact h.temp r' (by rwa [hused, if_neg heq] at hr')
  · intro r' hmem
    by_cases heq : r' = r
    · subst heq
      rcases ho with ⟨-, -, rfl⟩ | ⟨rfl, -, -⟩
      · exact absurd hmem hnot
      · simp [hused]
    · rw [hused, if_neg heq]
      refine h.used r' (Multiset.count_pos.mp ?_)
      rw [← hheld r' heq]
      exact Multiset.count_pos.mpr hmem
  · intro w b hb
    have := h.fixed w b
    grind
  · have hfilter : (arch.allocatable.filter fun y => s'.fixedLock y ≠ 0) =
        (arch.allocatable.filter fun y => s.fixedLock y ≠ 0).filter (· ≠ r) := by
      rw [List.filter_filter]
      refine List.filter_congr fun y _ => ?_
      rw [hlockEq]
      by_cases heq : y = r <;> simp [heq]
    rw [hfilter]
    have hle := h.fixedCount
    by_cases hf : a.fixed
    · have hlt : ((arch.allocatable.filter fun y => s.fixedLock y ≠ 0).filter (· ≠ r)).length <
          (arch.allocatable.filter fun y => s.fixedLock y ≠ 0).length := by
        rw [List.length_filter_lt_length_iff_exists]
        refine ⟨r, List.mem_filter.mpr ⟨h.usable r (by simp [hu]), ?_⟩, by simp⟩
        simp [h.fixedLock_eq ha hr, hf]
      simp only [hf, if_true] at hcount
      omega
    · have hlt := List.length_filter_le (· ≠ r) (arch.allocatable.filter fun y => s.fixedLock y ≠ 0)
      simp only [hf, Bool.false_eq_true, if_false] at hcount
      omega
  · exact hmost.trans h.fixedMost

/-- What the register file reads of an assignment stays. -/
theorem Regs.setVal {v : Val} {a b : Assignment} (h : Regs arch s held) (ha : s.val v = some a)
    (hreg : b.reg = a.reg)
    (hfix : b.fixed = a.fixed) (hused : s'.used = s.used) (hlocks : s'.locks = s.locks)
    (hval : s'.val = Function.update s.val v (some b)) (hcount : s'.fixedCount = s.fixedCount) :
      Regs arch s' held := by
  have hval : ∀ y, s'.val y = if y = v then some b else s.val y :=
    fun y => by rw [hval, Function.update_apply]
  have hregs : ∀ y, s'.regOf y = s.regOf y := by
    intro y
    rw [St.regOf, hval]
    split
    · rename_i heq
      rw [heq, St.regOf_eq ha, ← hreg]
      rfl
    · rfl
  have hlockEq : ∀ r', s'.fixedLock r' = s.fixedLock r' := by
    intro r'
    simp only [St.fixedLock, hval, hused]
    grind
  refine ⟨?_, ?_, ?_, ?_, ?_, ?_, ?_, ?_⟩
  · simpa only [hregs, hused] using h.owner
  · simpa only [hused] using h.usable
  · simpa only [hlockEq, hlocks] using h.locks
  · simpa only [hused] using h.temp
  · simpa only [hused] using h.used
  · intro w b' hb
    have := h.fixed w b'
    have := h.fixed v a ha
    grind
  · simpa only [hlockEq, hcount] using h.fixedCount
  · simpa only [hcount] using h.fixedMost

theorem Regs.congr (h : Regs arch s held) (hused : s'.used = s.used) (hlocks : s'.locks = s.locks)
    (hval : s'.val = s.val)
    (hcount : s'.fixedCount = s.fixedCount) : Regs arch s' held := by
  have hlockEq : s'.fixedLock = s.fixedLock := funext fun r => by simp only [St.fixedLock, hused, hval]
  have hregs : s'.regOf = s.regOf := funext fun v => by simp only [St.regOf, hval]
  constructor
  all_goals simp only [hused, hlocks, hval, hcount, hlockEq, hregs]
  exacts [h.owner, h.usable, h.locks, h.temp, h.used, h.fixed, h.fixedCount, h.fixedMost]

/-! ### The values -/

/-- The assignment of one value changes. -/
theorem Homes.update {v : Val} {x : Option Assignment} {gone' : Val → Prop} (h : Homes arch s m σ gone)
    (hval : s'.val = Function.update s.val v x) (hx : ∀ b, x = some b → Home arch m σ v (gone' v) b)
    (hgone : ∀ w, w ≠ v → gone w → gone' w) : Homes arch s' m σ gone' := by
  intro w b hb
  rw [hval, Function.update_apply] at hb
  split at hb
  · rename_i heq
    subst heq
    exact hx b hb
  · rename_i hne
    have hw := h w b hb
    exact ⟨hw.bits, hw.reg, hw.slot, hw.var, hw.stackVar, fun hg => hw.home fun h' => hg (hgone w hne h')⟩

/-- A register that no value is in is written. -/
theorem Homes.write {d : Reg} {x : Word} (h : Homes arch s m σ gone)
    (hd : ∀ v a, s.val v = some a → a.reg ≠ some d)
    (hfp : d ≠ arch.framePtr) : Homes arch s { m with reg := Function.update m.reg d x } σ gone := by
  intro v a ha
  have hv := h v a ha
  refine ⟨hv.bits, fun r hr => ?_, hv.slot, hv.var, fun hs => ?_, hv.home⟩
  · have hne : r ≠ d := fun heq => hd v a ha (heq ▸ hr)
    simpa only [Function.update_of_ne hne] using hv.reg r hr
  · simpa only [Function.update_of_ne hfp.symm] using hv.stackVar hs

/-- What an eviction stores. -/
theorem run_spill (c : Bool) (v : Val) (r : Reg) (bits : ℕ) :
    run Op.eval m (if c then [.spill v r bits] else []) =
    { m with slot := Function.update m.slot v (if c then low bits (m.reg r) else m.slot v) } := by
  cases c <;> simp [exec]

/-- An evicted value is in its slot, but for the address of a variable. -/
theorem Homes.evicted {r : Reg} {v : Val} {a : Assignment} (h : Homes arch s m σ gone)
    (ha : s.val v = some a) (hr : a.reg = some r) :
    Homes arch (s.evicted r v a)
      (run Op.eval m (if !a.stackValid && !a.variableRef then [.spill v r a.bits] else [])) σ gone := by
  have hv := h v a ha
  intro w b hb
  simp only [St.evicted, Function.update_apply] at hb
  rw [run_spill]
  split at hb
  · rename_i heq
    subst heq
    obtain rfl := Option.some.inj hb
    refine ⟨hv.bits, by simp, fun hs => ?_, hv.var, hv.stackVar, fun _ => ?_⟩
    · have hspill := (agree_low hv.bits (m.reg r)).trans (hv.reg r hr)
      have hslot := hv.slot
      dsimp only
      rw [Function.update_self]
      grind
    · cases a.stackValid <;> cases a.variableRef <;> simp
  · rename_i hne
    have hw := h w b hb
    refine ⟨hw.bits, hw.reg, fun hs => ?_, hw.var, hw.stackVar, hw.home⟩
    simpa only [Function.update_of_ne hne] using hw.slot hs

end

/-! ### The operations -/

/-- The machine `m` of `s` after the code that `s'` has besides. -/
def St.after (s s' : St) (m : Machine Val) : Machine Val := run Op.eval m (s'.code.drop s.code.length)

/-- What is known of a value besides its place. -/
def Assignment.info (a : Assignment) : ℕ × ℕ × Bool × Bool × Bool × Bool × Word :=
  (a.bits, a.refs, a.delayFree, a.pendingFree, a.variableRef, a.stackVariable, a.frameOff)

/-- From `s` to `s'` code is appended that leaves the held registers and the frame pointer
and moves values at most. -/
structure Keeps (arch : Arch) (held : Multiset Reg) (s s' : St) : Prop where
  code : s.code <+: s'.code
  reg : ∀ m r, r ∈ held ∨ r = arch.framePtr → (s.after s' m).reg r = m.reg r
  used : ∀ r ∈ held, s'.used r = s.used r
  info : ∀ v, (s'.val v).map Assignment.info = (s.val v).map Assignment.info
  homes : ∀ m σ gone, Homes arch s m σ gone → Homes arch s' (s.after s' m) σ gone

section
variable {arch : Arch} {s s' s'' : St} {held : Multiset Reg} {m : Machine Val}

theorem St.after_of_append {code : List (Instr Val Op)} (h : s'.code = s.code ++ code)
    (m : Machine Val) : s.after s' m = run Op.eval m code := by
  rw [after, h, List.drop_left]

theorem St.after_self (h : s'.code = s.code) (m : Machine Val) : s.after s' m = m :=
  after_of_append (h.trans (List.append_nil _).symm) m

theorem St.after_after (h : s.code <+: s'.code) (h' : s'.code <+: s''.code) (m : Machine Val) :
    s'.after s'' (s.after s' m) = s.after s'' m := by
  obtain ⟨code, hcode⟩ := h
  obtain ⟨code', hcode'⟩ := h'
  have hboth : s''.code = s.code ++ (code ++ code') := by rw [← hcode', ← hcode, List.append_assoc]
  rw [after_of_append hcode.symm, after_of_append hcode'.symm, after_of_append hboth, run_append]

theorem Keeps.of_same (hcode : s'.code = s.code) (hused : ∀ r ∈ held, s'.used r = s.used r)
    (hval : s'.val = s.val) :
    Keeps arch held s s' := by
  refine ⟨hcode ▸ List.prefix_refl _, fun m r _ => by rw [St.after_self hcode], hused,
    fun v => by rw [hval], fun m σ gone h => ?_⟩
  rw [St.after_self hcode]
  intro v a ha
  exact h v a (hval ▸ ha)

theorem Keeps.refl (arch : Arch) (held : Multiset Reg) (s : St) : Keeps arch held s s :=
  .of_same rfl (fun _ _ => rfl) rfl

theorem Keeps.trans (h : Keeps arch held s s') (h' : Keeps arch held s' s'') : Keeps arch held s s'' where
  code := h.code.trans h'.code
  reg m r hr := by rw [← St.after_after h.code h'.code, h'.reg _ r hr, h.reg m r hr]
  used r hr := (h'.used r hr).trans (h.used r hr)
  info v := (h'.info v).trans (h.info v)
  homes m σ gone hs := by
    rw [← St.after_after h.code h'.code]
    exact h'.homes _ σ gone (h.homes m σ gone hs)

theorem Keeps.mono {held' : Multiset Reg} (h : Keeps arch held' s s') (hle : ∀ r ∈ held, r ∈ held') :
    Keeps arch held s s' :=
  ⟨h.code, fun m r hr => h.reg m r (hr.imp_left (hle r)), fun r hr => h.used r (hle r hr), h.info, h.homes⟩

theorem ok_bind {α β : Type} (a : α) (f : α → Except Stop β) : (Except.ok a >>= f) = f a := rfl

/-- A register that is not held and not free is that of a value. -/
theorem Regs.of_unlocked (h : Regs arch s held) {r : Reg} (hu : s.used r ≠ none) (hlock : s.locks r = 0) :
    ∃ v a, s.used r = some (some v) ∧ s.val v = some a ∧ a.reg = some r := by
  obtain ⟨o, ho⟩ := Option.ne_none_iff_exists'.mp hu
  cases o with
  | none => simp [h.locks_temp ho] at hlock
  | some v =>
    obtain ⟨a, ha, hr⟩ := Option.bind_eq_some_iff.mp ((h.owner r v).mp ho)
    exact ⟨v, a, ho, ha, hr⟩

theorem Regs.evictReg {r : Reg} (h : Regs arch s held) (hu : s.used r ≠ none) (hlock : s.locks r = 0) :
    ∃ s', s.evictReg r = .ok s' ∧ Regs arch s' held ∧ Keeps arch held s s' ∧ s'.used r = none ∧
      (∀ m, (s.after s' m).reg = m.reg) ∧ ∀ v, s.regOf v = none → s'.val v = s.val v := by
  obtain ⟨v, a, ho, ha, hr⟩ := h.of_unlocked hu hlock
  have hafter (m : Machine Val) : s.after (s.evicted r v a) m =
      run Op.eval m (if !a.stackValid && !a.variableRef then [.spill v r a.bits] else []) :=
        St.after_of_append rfl m
  refine ⟨_, evictReg_eq ho hlock ha hr, h.evicted hlock ha hr,
    ⟨List.prefix_append .., fun m r' _ => ?_, fun r' hr' => ?_, fun w => ?_,
    fun m σ gone hs => ?_⟩, Function.update_self .., fun m => by rw [hafter, run_spill], fun w hw => ?_⟩
  · rw [hafter, run_spill]
  · have hne : r' ≠ r := by
      rintro rfl
      have := Multiset.count_pos.mpr hr'
      have := h.locks r'
      omega
    exact Function.update_of_ne hne ..
  · simp only [St.evicted, Function.update_apply]
    split
    · rename_i heq
      rw [heq, ha]
      rfl
    · rfl
  · rw [hafter]
    exact hs.evicted ha hr
  · refine Function.update_of_ne ?_ ..
    rintro rfl
    rw [St.regOf_eq ha, hr] at hw
    cases hw

theorem score_pos (a : Assignment) (d : ℕ) : 0 < score a d := by
  refine Nat.pos_of_ne_zero fun h => ?_
  have h := (Nat.or_eq_zero_iff.mp h).2
  generalize (if a.pendingFree = true then 0 else a.refs) = refsLeft at h
  split at h <;> omega

/-- The search finds an unlocked register in use where there is one. -/
theorem candidate_ok (c : Config) (h : Regs c.arch s held) (rs : List Reg) (best : Option Reg) (maxScore : ℕ)
    (hbest : ∀ r, best = some r → s.used r ≠ none ∧ s.locks r = 0) (hmax : best = none → maxScore = 0) :
    ∃ o, c.candidate s rs best maxScore = .ok o ∧ (∀ r, o = some r → s.used r ≠ none ∧ s.locks r = 0) ∧
      ((best.isSome ∨ ∃ r ∈ rs, s.used r ≠ none ∧ s.locks r = 0) → o.isSome) := by
  induction rs generalizing best maxScore with
  | nil => exact ⟨best, rfl, hbest, by simp⟩
  | cons r rs ih =>
    have skip (hr : ¬ (s.used r ≠ none ∧ s.locks r = 0)) : ∃ o, c.candidate s rs best maxScore = .ok o ∧
        (∀ r, o = some r → s.used r ≠ none ∧ s.locks r = 0) ∧
          ((best.isSome ∨ ∃ r' ∈ r :: rs, s.used r' ≠ none ∧ s.locks r' = 0) → o.isSome) := by
      obtain ⟨o, ho, hfree, hsome⟩ := ih best maxScore hbest hmax
      refine ⟨o, ho, hfree, fun hex => hsome (hex.imp_right ?_)⟩
      rintro ⟨r', hmem, hr'⟩
      rcases List.mem_cons.mp hmem with rfl | hmem
      · exact absurd hr' hr
      · exact ⟨r', hmem, hr'⟩
    rw [Config.candidate]
    by_cases hlock : s.locks r = 0
    · rw [if_neg (by simpa using hlock)]
      cases hu : s.used r with
      | none => exact skip (by simp [hu])
      | some o =>
        have hfree : s.used r ≠ none ∧ s.locks r = 0 := ⟨by simp [hu], hlock⟩
        obtain ⟨v, a, ho, ha, -⟩ := h.of_unlocked hfree.1 hlock
        obtain rfl : o = some v := Option.some.inj (hu.symm.trans ho)
        simp only [ha]
        split
        · exact ⟨some r, rfl, fun r' hr' => Option.some.inj hr' ▸ hfree, fun _ => rfl⟩
        · split
          · obtain ⟨o, ho, hfree', hsome⟩ :=
              ih (some r) (score a (c.lastUseDist v)) (fun r' hr' => Option.some.inj hr' ▸ hfree) (by simp)
            exact ⟨o, ho, hfree', fun _ => hsome (.inl rfl)⟩
          · obtain ⟨o, ho, hfree', hsome⟩ := ih best maxScore hbest hmax
            refine ⟨o, ho, hfree', fun _ => hsome (.inl ?_)⟩
            cases best with
            | none =>
              have := score_pos a (c.lastUseDist v)
              have := hmax rfl
              omega
            | some r' => rfl
    · rw [if_pos hlock]
      exact skip fun hr => hlock hr.2

/-- **A register is found** where the instruction holds at most eight. -/
theorem Regs.selectReg {c : Config} (h : Regs c.arch s held) (hroom : held.card ≤ 8) :
    ∃ r s', c.selectReg s = .ok (r, s') ∧ Regs c.arch s' held ∧ Keeps c.arch held s s' ∧
      s'.used r = none ∧ r ∈ c.arch.allocatable ∧
      (∀ m, (s.after s' m).reg = m.reg) ∧ ∀ v, s.regOf v = none → s'.val v = s.val v := by
  rw [Config.selectReg]
  cases hfind : c.arch.allocatable.find? fun r => s.used r == none with
  | some r =>
    exact ⟨r, s, rfl, h, Keeps.refl .., by simpa using List.find?_some hfind, List.mem_of_find?_eq_some hfind,
      fun m => by rw [St.after_self rfl], fun _ _ => rfl⟩
  | none =>
    have hall : ∀ r ∈ c.arch.allocatable, s.used r ≠ none := by simpa using hfind
    obtain ⟨r, hmem, hnf, hnot⟩ :=
      exists_not_mem (nodup_allocatable c.arch) (fun r => s.fixedLock r ≠ 0) held (by
      refine lt_of_le_of_lt (Nat.add_le_add_right h.fixedCount _) ?_
      have := h.fixedMost
      have : 14 ≤ c.arch.allocatable.length := by cases c.arch <;> decide
      omega)
    have hlock : s.locks r = 0 := by
      rw [h.locks, Multiset.count_eq_zero_of_notMem hnot]
      simpa using hnf
    obtain ⟨o, ho, hfree, hsome⟩ := candidate_ok c h c.arch.allocatable none 0 (by simp) (fun _ => rfl)
    obtain ⟨r', rfl⟩ := Option.isSome_iff_exists.mp (hsome (.inr ⟨r, hmem, hall r hmem, hlock⟩))
    obtain ⟨hused', hlock'⟩ := hfree r' rfl
    obtain ⟨s', hs', hregs, hkeeps, hfree', hreg, hval⟩ := h.evictReg hused' hlock'
    refine ⟨r', s', ?_, hregs, hkeeps, hfree', h.usable r' hused', hreg, hval⟩
    simp only [ho, ok_bind, hs']
    rfl

/-- A register that is used as `o`, with so many locks. -/
def St.setReg (s : St) (r : Reg) (o : Option (Option Val)) (n : ℕ) : St :=
  { s with used := Function.update s.used r o, locks := Function.update s.locks r n }

theorem Keeps.setReg {r : Reg} {o : Option (Option Val)} {n : ℕ} (hr : r ∉ held) :
    Keeps arch held s (s.setReg r o n) := by
  refine .of_same rfl (fun r' hr' => ?_) rfl
  have hne : r' ≠ r := by
    rintro rfl
    exact hr hr'
  exact Function.update_of_ne hne ..

/-- `mark_used` and `mark_fixed` of a free register. -/
theorem Regs.markScratch {r : Reg} (h : Regs arch s held) (hr : r ∈ arch.allocatable) (hu : s.used r = none) :
    (do (← s.markUsed r none).markFixed r) = .ok (s.setReg r (some none) 1) ∧
      Regs arch (s.setReg r (some none) 1) (r ::ₘ held) ∧
      Keeps arch held s (s.setReg r (some none) 1) := by
  refine ⟨?_, h.scratch hr hu rfl rfl rfl rfl, .setReg (h.not_mem hu)⟩
  simp [St.markUsed, St.markFixed, hu, h.locks_free hu, ok_bind, St.setReg]

/-- A scratch register is allocated. -/
theorem Regs.allocScratch {c : Config} (h : Regs c.arch s held) (hroom : held.card ≤ 8) :
    ∃ r s', c.allocScratch s = .ok (r, s') ∧ Regs c.arch s' (r ::ₘ held) ∧ Keeps c.arch held s s' ∧
      s'.used r = some none ∧
      ∀ m, (s.after s' m).reg = m.reg := by
  obtain ⟨r, s₁, hs₁, h₁, hk₁, hu, hr, hreg, -⟩ := h.selectReg hroom
  obtain ⟨hs', h', hk'⟩ := h₁.markScratch hr hu
  refine ⟨r, s₁.setReg r (some none) 1, ?_, h', hk₁.trans hk', Function.update_self .., hreg⟩
  simp only [Config.allocScratch, hs₁, ok_bind]
  simp only [← bind_assoc, hs']
  rfl

/-- A scratch register is given back. -/
theorem Regs.resetScratch {r : Reg} (h : Regs arch s (r ::ₘ held)) (hu : s.used r = some none) :
    s.resetScratch r = .ok (s.setReg r none 0) ∧ Regs arch (s.setReg r none 0) held ∧
      Keeps arch held s (s.setReg r none 0) := by
  have hcount : held.count r = 0 := by simpa using h.temp r hu
  refine ⟨?_, h.unscratch hu rfl rfl rfl rfl, .setReg (Multiset.count_eq_zero.mp hcount)⟩
  simp [St.resetScratch, St.unmarkFixed, St.unmarkUsed, hu, h.locks_temp hu, ok_bind, St.setReg]

/-! ### Code on scratch registers -/

/-- A register that code may write: a scratch register, or one that is never allocated. -/
def Writable (arch : Arch) (s : St) (d : Reg) : Prop := s.used d = some none ∨ d ∉ arch.allocatable ∧
    d ≠ arch.framePtr

/-- Code that writes registers among `ds` only. -/
def Writes (ds : List Reg) (code : List (Instr Val Op)) : Prop := ∀ i ∈ code, ∃ d ∈ ds, ∃ op, i = .set d op

theorem Regs.emits (h : Regs arch s held) (code : List (Instr Val Op)) : Regs arch (s.emits code) held :=
  h.congr rfl rfl rfl rfl

@[simp] theorem St.after_emits (code : List (Instr Val Op)) : s.after (s.emits code) m = run Op.eval m code :=
  St.after_of_append rfl m

theorem Writable.ne {d : Reg} (h : Regs arch s held) (hd : Writable arch s d) :
    (∀ v a, s.val v = some a → a.reg ≠ some d) ∧ d ≠ arch.framePtr := by
  refine ⟨fun v a ha hr => ?_, fun heq => ?_⟩
  · have hu := h.used_eq ha hr
    rcases hd with hd | hd
    · simp [hd] at hu
    · exact hd.1 (h.usable d (by simp [hu]))
  · rcases hd with hd | hd
    · exact framePtr_not_mem arch (heq ▸ h.usable d (by simp [hd]))
    · exact hd.2 heq

/-- Code on scratch registers leaves the others and every value. -/
theorem Keeps.emits {ds : List Reg} {code : List (Instr Val Op)} {held' : Multiset Reg} (h : Regs arch s held)
    (hcode : Writes ds code) (hds : ∀ d ∈ ds, Writable arch s d) (hnot : ∀ d ∈ ds, d ∉ held') :
      Keeps arch held' s (s.emits code) := by
  refine ⟨List.prefix_append .., fun m r hr => ?_, fun _ _ => rfl, fun _ => rfl, fun m σ gone hs => ?_⟩
  · rw [St.after_emits]
    induction code generalizing m with
    | nil => rfl
    | cons i code ih =>
      obtain ⟨d, hd, op, rfl⟩ := hcode i List.mem_cons_self
      have hne : r ≠ d := by
        rintro rfl
        rcases hr with hr | hr
        · exact hnot r hd hr
        · exact ((hds r hd).ne h).2 hr
      refine (ih (fun i hi => hcode i (List.mem_cons_of_mem _ hi)) _).trans ?_
      exact Function.update_of_ne hne ..
  · rw [St.after_emits]
    suffices Homes arch s (run Op.eval m code) σ gone from fun v a ha => this v a ha
    induction code generalizing m with
    | nil => exact hs
    | cons i code ih =>
      obtain ⟨d, hd, op, rfl⟩ := hcode i List.mem_cons_self
      obtain ⟨hval, hfp⟩ := (hds d hd).ne h
      exact ih (fun i hi => hcode i (List.mem_cons_of_mem _ hi)) _ (hs.write hval hfp)

end

end Tpde.Values
