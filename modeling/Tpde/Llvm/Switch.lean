import Mathlib.Data.Finset.Lattice.Fold
import Mathlib.Data.List.Sort
import Tpde.Library.LabelCode
import Tpde.Llvm.Icmp

/-!
# Switches

`compile_switch` sorts the cases and emits a search for the condition among them: up to four
comparisons one behind the other, a jump table where the values are dense and the target has
one, and a step of a binary search otherwise. Every case has a label behind the search, from
where the branch to its block is taken. Here is what the two targets share, and what a
target's instructions have to do (`Derived.Ok`) for the search to end in the block of the
condition (`compileSwitch_runs`).
-/

namespace Tpde.Switch

open LabelCode Icmp

/-- Code of the text writer, which numbers its labels. -/
abbrev Code (I : Type) := List (Item I ℕ)

/-- What the target supplies: its instructions `I`, of which some are those of comparisons, and
what it emits. A jump table gets the offset it is at and the next label, and gives the label
behind those it has created. -/
structure Derived (Inst I B : Type) where
  ops : Icmp.Derived Inst
  isa : Isa I ℕ State B
  op : Inst → I
  mov : ℕ → Reg → Reg → Inst
  jmp : ℕ → I
  branchToBlock : B → I
  switchEmitCmpeq : ℕ → Reg → Reg → BitVec 64 → Bool → Code I
  switchEmitBinaryStep : ℕ → ℕ → Reg → Reg → BitVec 64 → Bool → Code I
  switchEmitJumpTable : ℕ → ℕ → ℕ → List ℕ → Reg → Reg → BitVec 64 → BitVec 64 → Bool → Option (Code I × ℕ)

/-! ### The search -/

/-- What the search is for: the sorted values of the cases with their labels, and the registers
of the condition and for constants. -/
structure Search where
  values : List (BitVec 64)
  caseLabels : List ℕ
  defaultLabel : ℕ
  cmpReg : Reg
  tmpReg : Reg
  widthIs32 : Bool

namespace Search

variable (S : Search)

def value (i : ℕ) : BitVec 64 := S.values.getD i 0

def caseLabel (i : ℕ) : ℕ := S.caseLabels.getD i 0

/-- The labels of a jump table: those of the cases where there are no gaps, with the default in
the gaps otherwise. -/
def tableLabels (first last : ℕ) : List ℕ :=
  let numCases := last - first
  let range := (S.value (last - 1) - S.value first + 1).toNat
  if range = numCases then (S.caseLabels.drop first).take numCases
  else (List.range numCases).foldl
    (fun labels i => labels.set (S.value (first + i) - S.value first).toNat (S.caseLabel (first + i)))
    (List.replicate range S.defaultLabel)

end Search

section
variable {Inst I B : Type} (D : Derived Inst I B) (S : Search)

/-- Four or less cases are compared one after the other. -/
def compareEach (is : List ℕ) : Code I :=
  is.flatMap fun i => D.switchEmitCmpeq (S.caseLabel i) S.cmpReg S.tmpReg (S.value i) S.widthIs32

/-- A jump table, where the density of the values is high enough. -/
def jumpTable (off : ℕ) (next : ℕ) (first last : ℕ) : Option (Code I × ℕ) :=
  let range := S.value (last - 1) - S.value first
  if range ≠ BitVec.allOnes 64 ∧ range.toNat / (last - first) < 8 then
    D.switchEmitJumpTable off next S.defaultLabel (S.tableLabels first last) S.cmpReg S.tmpReg (S.value first)
      (S.value (last - 1)) S.widthIs32
  else none

/-- `build_range`: the code, and the next label. -/
def buildRange (off : ℕ) (next : ℕ) (first last : ℕ) : Code I × ℕ :=
  if last - first ≤ 4 then
    (compareEach D S (List.range' first (last - first)) ++ [.inst (D.jmp S.defaultLabel)], next)
  else
    match jumpTable D S off next first last with
    | some table => table
    | none =>
      let half := first + (last - first) / 2
      let gtLabel := next
      let step :=
        D.switchEmitBinaryStep (S.caseLabel half) gtLabel S.cmpReg S.tmpReg (S.value half) S.widthIs32
      let lower := buildRange (off + length D.isa step) (next + 1) first half
      let upper := buildRange (off + length D.isa step + length D.isa lower.1) lower.2 (half + 1) last
      (step ++ (lower.1 ++ .label gtLabel :: upper.1), upper.2)
termination_by last - first
decreasing_by all_goals omega

/-- The condition in a register: extended, or copied where the register belongs to a value. -/
def loadCondition (A : Alloc) (c : Ctx Inst) (cond : Part) (width : ℕ) : Reg × Ctx Inst :=
  let dstWidth := (width + 31) / 32 * 32
  if width ≠ dstWidth then
    let (cmpRef, c) := c.intoExtended D.ops A cond false width dstWidth
    c.loadToReg D.ops A cmpRef
  else
    match cond with
    | .reg src false =>
      let (dst, c) := c.allocGp A
      (dst, c.asm [D.mov width dst src])
    | part => c.loadToReg D.ops A part

variable {w : ℕ}

/-- The cases in ascending order of their values. -/
def sortCases (cases : List (BitVec w × B)) : List (BitVec 64 × B) :=
  (cases.map fun c => (c.1.setWidth 64, c.2)).mergeSort fun x y => x.1 ≤ y.1

/-- The search among sorted cases, with a new label for each and one for the default. -/
def Search.ofCases (sorted : List (BitVec 64 × B)) (next : ℕ) (cmpReg tmpReg : Reg) (widthIs32 : Bool) :
    Search where
  values := sorted.map Prod.fst
  caseLabels := List.range' next sorted.length
  defaultLabel := next + sorted.length
  cmpReg := cmpReg
  tmpReg := tmpReg
  widthIs32 := widthIs32

/-- The branches to the blocks, each behind its label. -/
def branches (defaultLabel : ℕ) (defaultDest : B) (cases : List (ℕ × B)) : Code I :=
  .label defaultLabel :: .inst (D.branchToBlock defaultDest) ::
    cases.flatMap fun c => [.label c.1, .inst (D.branchToBlock c.2)]

/-- `compile_switch`, at an offset of the text and with the next label of the text writer. -/
def compileSwitch (A : Alloc) (used : Finset Reg) (off : ℕ) (next : ℕ) (cond : Operand w)
    (cases : List (BitVec w × B))
    (defaultDest : B) : Option (Code I) :=
  if w > 64 then none
  else
    let (cmpReg, c) := loadCondition D A ⟨used, []⟩ cond.part0 w
    let (tmpReg, c) := c.allocGp A
    let load : Code I := c.code.map fun i => .inst (D.op i)
    let sorted := sortCases cases
    let S := Search.ofCases sorted next cmpReg tmpReg (w ≤ 32)
    let search := buildRange D S (off + length D.isa load) (S.defaultLabel + 1) 0 sorted.length
    some (load ++
      (search.1 ++ branches D S.defaultLabel defaultDest (S.caseLabels.zip (sorted.map Prod.snd))))

end

/-- The block of a value. -/
def destination {w : ℕ} {B : Type} (cases : List (BitVec w × B)) (defaultDest : B) (x : BitVec w) : B :=
  ((cases.find? fun c => c.1 == x).map Prod.snd).getD defaultDest

/-! ### What the target does -/

/-- The condition as the comparisons see it. -/
def word (widthIs32 : Bool) (x : BitVec 64) : BitVec 64 :=
  if widthIs32 then (x.setWidth 32).setWidth 64 else x

theorem word_lt {widthIs32 : Bool} (x : BitVec 64) (h : widthIs32 = true) :
    (word widthIs32 x).toNat < 2 ^ 32 := by
  simp only [word, h, if_true]
  rw [BitVec.toNat_setWidth_of_le (by omega)]
  exact (x.setWidth 32).isLt

/-- A value has the width of the comparisons. -/
def Narrow (widthIs32 : Bool) (v : BitVec 64) : Prop := widthIs32 = true → v.toNat < 2 ^ 32

/-- The flags of a comparison, as the search reads them. -/
structure Compared (f : SubFlags.Flags) (x v : BitVec 64) : Prop where
  zero : f.zero = decide (x = v)
  borrow : f.borrow = decide (x.toNat < v.toNat)

theorem compared_sub (x v : BitVec 64) : Compared (SubFlags.sub x v false) x v := ⟨SubFlags.zero_sub x v, rfl⟩

theorem compared_sub_low (x : BitVec 64) {v : BitVec 64} (hv : v.toNat < 2 ^ 32) :
    Compared (SubFlags.sub (x.setWidth 32) (v.setWidth 32) false) (word true x) v := by
  have hword : (word true x).toNat = (x.setWidth 32).toNat := by
    rw [word, if_pos rfl, BitVec.toNat_setWidth_of_le (by omega)]
  have hlow : v.toNat = (v.setWidth 32).toNat := by rw [BitVec.toNat_setWidth, Nat.mod_eq_of_lt hv]
  constructor
  · rw [SubFlags.zero_sub, decide_eq_decide, BitVec.toNat_eq, BitVec.toNat_eq, hword, hlow]
  · rw [hword, hlow]
    rfl

/-- What a target's instructions have to do. Only the register for constants changes before the
code is left through a label, and the condition's in a jump table. -/
structure Derived.Ok {Inst I B : Type} (D : Derived Inst I B) : Prop where
  ops : D.ops.Ok
  op (fetch : ℕ → Option I) (offset : ℕ → Option ℕ) (i : Inst) (s : State) :
    D.isa.exec fetch offset (D.op i) s = some (.next (D.ops.exec i s))
  mov_self {width : ℕ} (hw : width = 32 ∨ width = 64) (dst src : Reg) (s : State) :
    ((D.ops.exec (D.mov width dst src) s).regs dst).setWidth width = (s.regs src).setWidth width
  mov_other (width : ℕ) {dst src q : Reg} (s : State) (hq : q ≠ dst) :
    (D.ops.exec (D.mov width dst src) s).regs q = s.regs q
  jmp (fetch : ℕ → Option I) (offset : ℕ → Option ℕ) (l : ℕ) (s : State) :
    D.isa.exec fetch offset (D.jmp l) s = some (.jump l s)
  branchToBlock (fetch : ℕ → Option I) (offset : ℕ → Option ℕ) (b : B) (s : State) :
    D.isa.exec fetch offset (D.branchToBlock b) s = some (.exit b s)
  cmpeq_labels (l : ℕ) (cmp tmp : Reg) (v : BitVec 64) (is32 : Bool) :
    labels (D.switchEmitCmpeq l cmp tmp v is32) = []
  cmpeq {code : Code I} {a pos : ℕ} {l : ℕ} {cmp tmp : Reg} {v : BitVec 64} {is32 : Bool} (s : State)
    (hat : CodeAt D.isa code a (D.switchEmitCmpeq l cmp tmp v is32))
    (hl : offset D.isa code l = some pos) (htmp : cmp ≠ tmp)
    (hv : Narrow is32 v) : ∃ s', (∀ q, q ≠ tmp → s'.regs q = s.regs q) ∧
      Runs D.isa code (.run a s)
        (.run (if word is32 (s.regs cmp) = v then pos
          else a + length D.isa (D.switchEmitCmpeq l cmp tmp v is32)) s')
  binaryStep_labels (l gt : ℕ) (cmp tmp : Reg) (v : BitVec 64) (is32 : Bool) :
    labels (D.switchEmitBinaryStep l gt cmp tmp v is32) = []
  binaryStep {code : Code I} {a pos gtPos : ℕ} {l gt : ℕ} {cmp tmp : Reg} {v : BitVec 64} {is32 : Bool}
    (s : State)
    (hat : CodeAt D.isa code a (D.switchEmitBinaryStep l gt cmp tmp v is32))
    (hl : offset D.isa code l = some pos)
    (hgt : offset D.isa code gt = some gtPos) (htmp : cmp ≠ tmp) (hv : Narrow is32 v) :
    ∃ s', (∀ q, q ≠ tmp → s'.regs q = s.regs q) ∧
      Runs D.isa code (.run a s)
        (.run (if word is32 (s.regs cmp) = v then pos
          else if v.toNat < (word is32 (s.regs cmp)).toNat then gtPos
          else a + length D.isa (D.switchEmitBinaryStep l gt cmp tmp v is32)) s')
  jumpTable_labels {off : ℕ} {next dflt : ℕ} {table : List ℕ} {cmp tmp : Reg} {low high : BitVec 64}
    {is32 : Bool}
    {is : Code I} {next' : ℕ} (h : D.switchEmitJumpTable off next dflt table cmp tmp low high is32 =
      some (is, next')) :
    next ≤ next' ∧ (labels is).Nodup ∧ ∀ l ∈ labels is, next ≤ l ∧ l < next'
  jumpTable {code : Code I} {a off : ℕ} {next dflt : ℕ} {table : List ℕ} {cmp tmp : Reg}
    {low high : BitVec 64} {is32 : Bool}
    {is : Code I} {next' : ℕ} {pos : ℕ → ℕ} (s : State)
    (h : D.switchEmitJumpTable off next dflt table cmp tmp low high is32 = some (is, next'))
    (hat : CodeAt D.isa code a is) (hnodup : (labels code).Nodup) (hsize : length D.isa code < 2 ^ 31)
    (hpos : ∀ l ∈ dflt :: table, offset D.isa code l = some (pos l)) (htmp : cmp ≠ tmp)
    (hlow : Narrow is32 low)
    (hhigh : Narrow is32 high) (hle : low.toNat ≤ high.toNat)
    (hlen : table.length = high.toNat - low.toNat + 1) :
    ∃ s', (∀ q, q ≠ cmp → q ≠ tmp → s'.regs q = s.regs q) ∧
      Runs D.isa code (.run a s)
        (.run
          (pos (if low.toNat ≤ (word is32 (s.regs cmp)).toNat ∧
          (word is32 (s.regs cmp)).toNat ≤ high.toNat then
          table.getD ((word is32 (s.regs cmp)).toNat - low.toNat) dflt else dflt)) s')

section
variable {Inst I B : Type} {D : Derived Inst I B} (hD : D.Ok) (S : Search)
include hD

/-! ### The labels of the search -/

theorem labels_compareEach (is : List ℕ) : labels (compareEach D S is) = [] := by
  induction is with
  | nil => rfl
  | cons i is ih =>
    rw [compareEach, List.flatMap_cons, labels_append, hD.cmpeq_labels]
    exact ih

/-- The search places labels it has created, each once. -/
theorem buildRange_labels (off : ℕ) (next : ℕ) (first last : ℕ) :
    next ≤ (buildRange D S off next first last).2 ∧ (labels (buildRange D S off next first last).1).Nodup ∧
      ∀ l ∈ labels (buildRange D S off next first last).1, next ≤ l ∧
        l < (buildRange D S off next first last).2 := by
  fun_induction buildRange D S off next first last with
  | case1 off next first last hfew => simp [labels_compareEach hD]
  | case2 off next first last hmany table htable =>
    simp only [jumpTable] at htable
    split_ifs at htable
    exact hD.jumpTable_labels htable
  | case3 off next first last hmany htable half gtLabel step lower upper ih₁ _ ih₂ =>
    have hstep : labels step = [] := hD.binaryStep_labels ..
    change next + 1 ≤ lower.2 ∧ (labels lower.1).Nodup ∧ ∀ l ∈ labels lower.1, next + 1 ≤ l ∧
      l < lower.2 at ih₁
    change lower.2 ≤ upper.2 ∧ (labels upper.1).Nodup ∧ ∀ l ∈ labels upper.1, lower.2 ≤ l ∧ l < upper.2 at ih₂
    obtain ⟨hle, hnodup, hmem⟩ := ih₁
    obtain ⟨hle', hnodup', hmem'⟩ := ih₂
    simp only [labels_append, labels_label, hstep, List.nil_append]
    refine ⟨by omega, List.nodup_append'.mpr ⟨hnodup, List.nodup_cons.mpr ⟨fun h => ?_, hnodup'⟩,
      fun l hl hl' => ?_⟩, fun l hl => ?_⟩
    · have := hmem' _ h
      omega
    · have := hmem l hl
      rcases List.mem_cons.mp hl' with rfl | hl'
      · omega
      · have := hmem' l hl'
        omega
    · rcases List.mem_append.mp hl with hl | hl
      · have := hmem l hl
        omega
      · rcases List.mem_cons.mp hl with rfl | hl
        · omega
        · have := hmem' l hl
          omega

end

/-! ### Jump tables -/

section
variable {α : Type} (ls : List α) (ix : ℕ → ℕ) (f : ℕ → α) (n : ℕ)

theorem length_foldl_set : ((List.range n).foldl (fun ls i => ls.set (ix i) (f i)) ls).length =
    ls.length := by
  induction n with
  | zero => rfl
  | succ n ih => rw [List.range_succ, List.foldl_append, List.foldl_cons, List.foldl_nil, List.length_set, ih]

theorem getElem?_foldl_set_of_ne {k : ℕ} (h : ∀ i < n, ix i ≠ k) :
    ((List.range n).foldl (fun ls i => ls.set (ix i) (f i)) ls)[k]? = ls[k]? := by
  induction n with
  | zero => rfl
  | succ n ih =>
    rw [List.range_succ, List.foldl_append, List.foldl_cons, List.foldl_nil,
      List.getElem?_set_ne (h n (by omega)),
      ih fun i hi => h i (by omega)]

theorem getElem?_foldl_set (hinj : ∀ i < n, ∀ j < n, ix i = ix j → i = j) {i : ℕ} (hi : i < n)
    (hlt : ix i < ls.length) :
    ((List.range n).foldl (fun ls i => ls.set (ix i) (f i)) ls)[ix i]? = some (f i) := by
  induction n with
  | zero => omega
  | succ n ih =>
    rw [List.range_succ, List.foldl_append, List.foldl_cons, List.foldl_nil]
    by_cases hin : i = n
    · subst hin
      exact List.getElem?_set_self (by rwa [length_foldl_set])
    · have hne : ix n ≠ ix i := fun h => hin (hinj n (by omega) i hi h).symm
      rw [List.getElem?_set_ne hne]
      exact ih (fun i hi j hj => hinj i (by omega) j (by omega)) (by omega)

end

namespace Search

/-- The values ascend, fit the comparisons, and each has a label. -/
structure Ok (S : Search) : Prop where
  ascending : ∀ i j, i < j → j < S.values.length → (S.value i).toNat < (S.value j).toNat
  narrow : ∀ i < S.values.length, Narrow S.widthIs32 (S.value i)
  length_caseLabels : S.caseLabels.length = S.values.length

variable {S : Search} (hS : S.Ok) {first last : ℕ}
include hS

/-- Between two values there is room for those between them. -/
theorem Ok.gap (i k : ℕ) (h : i + k < S.values.length) : (S.value i).toNat + k ≤ (S.value (i + k)).toNat := by
  induction k with
  | zero => rfl
  | succ k ih =>
    have := ih (by omega)
    have := hS.ascending (i + k) (i + (k + 1)) (by omega) h
    omega

theorem Ok.range (hlt : first < last) (hlast : last ≤ S.values.length)
    (hmax : S.value (last - 1) - S.value first ≠ BitVec.allOnes 64) :
    (S.value (last - 1) - S.value first + 1).toNat =
      (S.value (last - 1)).toNat - (S.value first).toNat + 1 := by
  have hgap := hS.gap first (last - 1 - first) (by omega)
  rw [show first + (last - 1 - first) = last - 1 by omega] at hgap
  have hsub :
    (S.value (last - 1) - S.value first).toNat = (S.value (last - 1)).toNat - (S.value first).toNat :=
    BitVec.toNat_sub_of_le (by rw [BitVec.le_def]; omega)
  have hne : (S.value (last - 1) - S.value first).toNat ≠ 2 ^ 64 - 1 :=
    fun h => hmax (BitVec.eq_of_toNat_eq (by simpa using h))
  have hbound := (S.value (last - 1) - S.value first).isLt
  rw [BitVec.toNat_add, Nat.mod_eq_of_lt (by simp; omega), hsub]
  rfl

/-- **A jump table has the label of each value, and the default elsewhere.** -/
theorem Ok.tableLabels (hlt : first < last) (hlast : last ≤ S.values.length)
    (hmax : S.value (last - 1) - S.value first ≠ BitVec.allOnes 64) :
    (S.tableLabels first last).length = (S.value (last - 1)).toNat - (S.value first).toNat + 1 ∧
      (∀ i, first ≤ i → i < last →
        (S.tableLabels first last)[(S.value i).toNat - (S.value first).toNat]? = some (S.caseLabel i)) ∧
      ∀ k < (S.tableLabels first last).length,
        (∀ i, first ≤ i → i < last → (S.value i).toNat ≠ (S.value first).toNat + k) →
        (S.tableLabels first last)[k]? = some S.defaultLabel := by
  have hrange := hS.range hlt hlast hmax
  have hlow : ∀ i, first ≤ i → i < last → (S.value first).toNat + (i - first) ≤ (S.value i).toNat :=
    fun i hi hil => by
    have h := hS.gap first (i - first) (by omega)
    rwa [show first + (i - first) = i by omega] at h
  have hhigh : ∀ i, first ≤ i → i < last →
    (S.value i).toNat + (last - 1 - i) ≤ (S.value (last - 1)).toNat := fun i hi hil => by
    have h := hS.gap i (last - 1 - i) (by omega)
    rwa [show i + (last - 1 - i) = last - 1 by omega] at h
  have hlabel : ∀ i < S.values.length, S.caseLabels[i]? = some (S.caseLabel i) := fun i hi => by
    rw [Search.caseLabel, List.getD_eq_getElem?_getD,
      List.getElem?_eq_getElem (by rwa [hS.length_caseLabels]), Option.getD_some]
  unfold Search.tableLabels
  simp only [hrange]
  split_ifs with hdense
  · -- there are as many values as places
    have hvalue : ∀ i, first ≤ i → i < last → (S.value i).toNat = (S.value first).toNat + (i - first) :=
      fun i hi hil => by
      have := hlow i hi hil
      have := hhigh i hi hil
      omega
    have hlen : ((S.caseLabels.drop first).take (last - first)).length = last - first := by
      rw [List.length_take, List.length_drop, hS.length_caseLabels]
      omega
    refine ⟨by rw [hlen, hdense], fun i hi hil => ?_, fun k hk hnone => ?_⟩
    · rw [hvalue i hi hil, List.getElem?_take_of_lt (by omega), List.getElem?_drop, ← hlabel i (by omega)]
      congr 1
      omega
    · exact absurd
        (hvalue (first + k) (by omega) (by omega)) (by simpa using hnone (first + k) (by omega) (by omega))
  · have hix : ∀ i < last - first,
      (S.value (first + i) - S.value first).toNat = (S.value (first + i)).toNat - (S.value first).toNat :=
      fun i hi => BitVec.toNat_sub_of_le (by
        have := hlow (first + i) (by omega) (by omega)
        rw [BitVec.le_def]
        omega)
    refine ⟨by rw [length_foldl_set, List.length_replicate], fun i hi hil => ?_, fun k hk hnone => ?_⟩
    · obtain ⟨j, rfl⟩ := Nat.exists_eq_add_of_le hi
      rw [← hix j (by omega)]
      refine getElem?_foldl_set _ _ (fun i => S.caseLabel (first + i)) _ (fun i hi j hj h => ?_) (by omega) ?_
      · rw [hix i hi, hix j hj] at h
        by_contra hne
        have := hlow (first + i) (by omega) (by omega)
        have := hlow (first + j) (by omega) (by omega)
        rcases Nat.lt_or_gt_of_ne hne with hij | hij
        · have := hS.ascending (first + i) (first + j) (by omega) (by omega)
          omega
        · have := hS.ascending (first + j) (first + i) (by omega) (by omega)
          omega
      · have := hhigh (first + j) (by omega) (by omega)
        have := hlow (first + j) (by omega) (by omega)
        rw [List.length_replicate, hix j (by omega)]
        omega
    · rw [length_foldl_set, List.length_replicate] at hk
      rw [getElem?_foldl_set_of_ne, List.getElem?_replicate_of_lt hk]
      intro i hi h
      rw [hix i hi] at h
      have := hlow (first + i) (by omega) (by omega)
      exact hnone (first + i) (by omega) (by omega) (by omega)

end Search

/-! ### Runs of the search -/

/-- The label of a value among those of some cases. -/
def Search.Lands (S : Search) (first last : ℕ) (x : BitVec 64) (l : ℕ) : Prop :=
  (∃ i, first ≤ i ∧ i < last ∧ S.value i = x ∧ l = S.caseLabel i) ∨
    ((∀ i, first ≤ i → i < last → S.value i ≠ x) ∧ l = S.defaultLabel)

section
variable {Inst I B : Type} {D : Derived Inst I B} (hD : D.Ok) {S : Search} (hS : S.Ok)
    (hregs : S.cmpReg ≠ S.tmpReg) {code : Code I}
  (pos : ℕ → ℕ) (hnodup : (labels code).Nodup) (hsize : length D.isa code < 2 ^ 31)
  (hcases : ∀ i < S.values.length, offset D.isa code (S.caseLabel i) = some (pos (S.caseLabel i)))
  (hdefault : offset D.isa code S.defaultLabel = some (pos S.defaultLabel))
include hD hS hregs hcases

/-- **Comparisons one after the other** find a case with the value, or go on behind them. -/
theorem compareEach_runs (is : List ℕ) (his : ∀ i ∈ is, i < S.values.length) {a : ℕ} {rest : Code I}
    (hat : CodeAt D.isa code a (compareEach D S is ++ rest)) (s : State) :
    ∃ s', (∀ q, q ≠ S.tmpReg → s'.regs q = s.regs q) ∧
      ((∃ i ∈ is, S.value i = word S.widthIs32 (s.regs S.cmpReg) ∧
        Runs D.isa code (.run a s) (.run (pos (S.caseLabel i)) s')) ∨
        ((∀ i ∈ is, S.value i ≠ word S.widthIs32 (s.regs S.cmpReg)) ∧
          Runs D.isa code (.run a s) (.run (a + length D.isa (compareEach D S is)) s'))) := by
  induction is generalizing a s with
  | nil => exact ⟨s, fun _ _ => rfl, .inr ⟨nofun, Runs.refl _⟩⟩
  | cons i is ih =>
    obtain ⟨hi, his⟩ := List.forall_mem_cons.mp his
    rw [compareEach, List.flatMap_cons, List.append_assoc] at hat
    obtain ⟨s₁, hkeep, hrun⟩ := hD.cmpeq s hat.left (hcases i hi) hregs (hS.narrow i hi)
    by_cases heq : word S.widthIs32 (s.regs S.cmpReg) = S.value i
    · rw [if_pos heq] at hrun
      exact ⟨s₁, hkeep, .inl ⟨i, List.mem_cons_self, heq.symm, hrun⟩⟩
    · rw [if_neg heq] at hrun
      obtain ⟨s₂, hkeep', hrest⟩ := ih his hat.right s₁
      rw [hkeep _ hregs] at hrest
      refine ⟨s₂, fun q hq => (hkeep' q hq).trans (hkeep q hq), ?_⟩
      rcases hrest with ⟨j, hj, hvalue, hrun'⟩ | ⟨hnone, hrun'⟩
      · exact .inl ⟨j, List.mem_cons_of_mem _ hj, hvalue, hrun.trans hrun'⟩
      · refine .inr ⟨List.forall_mem_cons.mpr ⟨Ne.symm heq, hnone⟩, ?_⟩
        rw [compareEach, List.flatMap_cons, length_append, ← Nat.add_assoc]
        exact hrun.trans hrun'

include hnodup hsize hdefault

/-- **A jump table** goes to the label of the value. -/
theorem jumpTable_runs {off next first last : ℕ} (hlt : first < last) (hlast : last ≤ S.values.length)
    {table : Code I × ℕ}
    (h : jumpTable D S off next first last = some table) {a : ℕ} (hat : CodeAt D.isa code a table.1)
    (s : State) :
    ∃ l s', S.Lands first last (word S.widthIs32 (s.regs S.cmpReg)) l ∧
      (∀ q, q ≠ S.cmpReg → q ≠ S.tmpReg → s'.regs q = s.regs q) ∧
      Runs D.isa code (.run a s) (.run (pos l) s') := by
  simp only [jumpTable] at h
  split_ifs at h with hdense
  obtain ⟨hlen, hvalues, hgaps⟩ := hS.tableLabels hlt hlast hdense.1
  set x := word S.widthIs32 (s.regs S.cmpReg) with hx
  have hle : (S.value first).toNat ≤ (S.value (last - 1)).toNat := by
    have h := hS.gap first (last - 1 - first) (by omega)
    rw [show first + (last - 1 - first) = last - 1 by omega] at h
    omega
  -- a label of the table is that of a value or the default
  have hentry : ∀ k < (S.tableLabels first last).length,
    S.Lands first last (BitVec.ofNat 64 ((S.value first).toNat + k))
      ((S.tableLabels first last).getD k S.defaultLabel) := by
    intro k hk
    have hbound := (S.value (last - 1)).isLt
    by_cases hvalue : ∃ i, first ≤ i ∧ i < last ∧ (S.value i).toNat = (S.value first).toNat + k
    · obtain ⟨i, hi, hil, heq⟩ := hvalue
      refine .inl ⟨i, hi, hil, BitVec.eq_of_toNat_eq ?_, ?_⟩
      · rw [BitVec.toNat_ofNat, Nat.mod_eq_of_lt (by omega), heq]
      · have h := hvalues i hi hil
        rw [heq, Nat.add_sub_cancel_left] at h
        rw [List.getD_eq_getElem?_getD, h, Option.getD_some]
    · have hnone : ∀ i, first ≤ i → i < last → (S.value i).toNat ≠ (S.value first).toNat + k :=
        fun i hi hil heq => hvalue ⟨i, hi, hil, heq⟩
      refine .inr ⟨fun i hi hil heq => hnone i hi hil ?_, ?_⟩
      · rw [heq, BitVec.toNat_ofNat, Nat.mod_eq_of_lt (by omega)]
      · rw [List.getD_eq_getElem?_getD, hgaps k hk hnone, Option.getD_some]
  have hpos : ∀ l ∈ S.defaultLabel :: S.tableLabels first last, offset D.isa code l = some (pos l) := by
    refine List.forall_mem_cons.mpr ⟨hdefault, fun l hl => ?_⟩
    obtain ⟨k, hk, rfl⟩ := List.mem_iff_getElem.mp hl
    have hentry := hentry k hk
    rw [List.getD_eq_getElem?_getD, List.getElem?_eq_getElem hk, Option.getD_some] at hentry
    rcases hentry with ⟨i, -, hil, -, heq⟩ | ⟨-, heq⟩
    · rw [heq]
      exact hcases i (by omega)
    · rw [heq]
      exact hdefault
  obtain ⟨s', hkeep, hrun⟩ :=
    hD.jumpTable s h hat hnodup hsize hpos hregs (hS.narrow first (by omega))
      (hS.narrow (last - 1) (by omega))
    hle hlen
  rw [← hx] at hrun
  refine ⟨_, s', ?_, hkeep, hrun⟩
  split_ifs with hin
  · have h := hentry (x.toNat - (S.value first).toNat) (by omega)
    rwa [show (S.value first).toNat + (x.toNat - (S.value first).toNat) = x.toNat by omega,
      BitVec.ofNat_toNat, BitVec.setWidth_eq] at h
  · refine .inr ⟨fun i hi hil heq => hin ?_, rfl⟩
    have hfirst := hS.gap first (i - first) (by omega)
    have hlast := hS.gap i (last - 1 - i) (by omega)
    rw [show first + (i - first) = i by omega] at hfirst
    rw [show i + (last - 1 - i) = last - 1 by omega] at hlast
    rw [← heq]
    omega

/-- **The search** ends at the label of the condition. -/
theorem buildRange_runs (off next first last : ℕ) (hle : first ≤ last)
    (hlast : last ≤ S.values.length) {a : ℕ}
    (hat : CodeAt D.isa code a (buildRange D S off next first last).1) (s : State) :
    ∃ l s', S.Lands first last (word S.widthIs32 (s.regs S.cmpReg)) l ∧
      (∀ q, q ≠ S.cmpReg → q ≠ S.tmpReg → s'.regs q = s.regs q) ∧
      Runs D.isa code (.run a s) (.run (pos l) s') := by
  fun_induction buildRange D S off next first last generalizing a s with
  | case1 off next first last hfew =>
    have hmem : ∀ i, i ∈ List.range' first (last - first) ↔ first ≤ i ∧ i < last := fun i => by
      rw [List.mem_range'_1]
      omega
    obtain ⟨s', hkeep, hrun⟩ := compareEach_runs hD hS hregs pos hcases (List.range' first (last - first))
      (fun i hi => by have := (hmem i).mp hi; omega) hat s
    rcases hrun with ⟨i, hi, hvalue, hrun⟩ | ⟨hnone, hrun⟩
    · exact ⟨_, s', .inl ⟨i, ((hmem i).mp hi).1, ((hmem i).mp hi).2, hvalue, rfl⟩,
        fun q _ hq => hkeep q hq, hrun⟩
    · exact ⟨_, s', .inr ⟨fun i hi hil => hnone i ((hmem i).mpr ⟨hi, hil⟩), rfl⟩, fun q _ hq => hkeep q hq,
        hrun.trans (hat.right.jump (hD.jmp _ _ _ _) hdefault)⟩
  | case2 off next first last hmany table htable =>
    exact jumpTable_runs hD hS hregs pos hnodup hsize hcases hdefault (by omega) hlast htable hat s
  | case3 off next first last hmany htable half gtLabel step lower upper ih₁ =>
    rename_i ih₂
    have hhalf : first ≤ half ∧ half < last := ⟨by omega, by omega⟩
    have hgt := (hat.right.right).offset hnodup
    obtain ⟨s₁, hkeep, hrun⟩ :=
      hD.binaryStep s hat.left (hcases half (by omega)) hgt hregs (hS.narrow half (by omega))
    set x := word S.widthIs32 (s.regs S.cmpReg) with hx
    have hx₁ : word S.widthIs32 (s₁.regs S.cmpReg) = x := by rw [hkeep _ hregs]
    by_cases heq : x = S.value half
    · rw [if_pos heq] at hrun
      exact ⟨_, s₁, .inl ⟨half, hhalf.1, hhalf.2, heq.symm, rfl⟩, fun q _ hq => hkeep q hq, hrun⟩
    rw [if_neg heq] at hrun
    split_ifs at hrun with hlt
    · -- the cases up to `half` are not greater than its value
      obtain ⟨l, s₂, hlands, hkeep', hrun'⟩ := ih₂ (by omega) hlast hat.right.right.behind s₁
      rw [hx₁] at hlands
      refine ⟨l, s₂, ?_, fun q hq hq' => (hkeep' q hq hq').trans (hkeep q hq'), hrun.trans hrun'⟩
      rcases hlands with ⟨i, hi, hil, hvalue⟩ | ⟨hnone, hl⟩
      · exact .inl ⟨i, by omega, hil, hvalue⟩
      · refine .inr ⟨fun i hi hil hvalue => ?_, hl⟩
        by_cases hup : half + 1 ≤ i
        · exact hnone i hup hil hvalue
        · have hgap := hS.gap i (half - i) (by omega)
          rw [show i + (half - i) = half by omega, hvalue] at hgap
          omega
    · obtain ⟨l, s₂, hlands, hkeep', hrun'⟩ := ih₁ (by omega) (by omega) hat.right.left s₁
      rw [hx₁] at hlands
      refine ⟨l, s₂, ?_, fun q hq hq' => (hkeep' q hq hq').trans (hkeep q hq'), hrun.trans hrun'⟩
      rcases hlands with ⟨i, hi, hil, hvalue⟩ | ⟨hnone, hl⟩
      · exact .inl ⟨i, hi, by omega, hvalue⟩
      · refine .inr ⟨fun i hi hil hvalue => ?_, hl⟩
        by_cases hdown : i < half
        · exact hnone i hi hdown hvalue
        · have hgap := hS.gap half (i - half) (by omega)
          rw [show half + (i - half) = i by omega, hvalue] at hgap
          have hne : x.toNat ≠ (S.value half).toNat := fun h => heq (BitVec.eq_of_toNat_eq h)
          omega

end

/-! ### The condition -/

theorem setWidth_word {w : ℕ} (v : BitVec w) (hw : w ≤ 64) :
    (v.setWidth (machineWidth w)).setWidth 64 = v.setWidth 64 := by
  have hle : w ≤ machineWidth w ∧ machineWidth w ≤ 64 := by
    unfold machineWidth
    split_ifs <;> omega
  apply BitVec.eq_of_toNat_eq
  rw [BitVec.toNat_setWidth_of_le hle.2, BitVec.toNat_setWidth_of_le hle.1, BitVec.toNat_setWidth_of_le hw]

theorem word_eq (w : ℕ) (x : BitVec 64) : word (w ≤ 32) x = (x.setWidth (machineWidth w)).setWidth 64 := by
  by_cases hw : w ≤ 32
  · rw [show machineWidth w = 32 from if_pos hw]
    simp [word, hw]
  · rw [show machineWidth w = 64 from if_neg hw]
    simp [word, hw]

/-- A register holds the condition, the registers in use are kept but for one that the
condition owns, and that one or a new one is the condition's. -/
structure Loaded {Inst : Type} (exec : Inst → State → State) (used : Finset Reg) (p : Part) (s : State)
    {w : ℕ} (v : BitVec w) (r : Reg)
    (c : Ctx Inst) : Prop where
  value : word (w ≤ 32) ((run exec c.code s).regs r) = v.setWidth 64
  keeps : ∀ q ∈ used, (p.canSalvage = true → q ∉ p.regs) → (run exec c.code s).regs q = s.regs q ∧ q ≠ r
  reg_used : r ∈ c.used
  used_subset : used ⊆ c.used

section
variable {Inst I B : Type} {D : Derived Inst I B} (hD : D.Ok) (A : Alloc) {used : Finset Reg}
include hD

theorem loadCondition_spec {w : ℕ} (hw : 0 < w ∧ w ≤ 64) {p : Part} (hused : p.regs ⊆ used)
    (hfits : p.Fits w) (s : State) :
    Loaded D.ops.exec used p s ((p.val s).setWidth w) (loadCondition D A ⟨used, []⟩ p w).1
      (loadCondition D A ⟨used, []⟩ p w).2 := by
  have hext : (w + 31) / 32 * 32 = machineWidth w := by
    unfold machineWidth
    split_ifs <;> omega
  have hW : machineWidth w = 32 ∨ machineWidth w = 64 := by
    unfold machineWidth
    split_ifs <;> simp
  by_cases hne : w ≠ machineWidth w
  · have hlt : w < machineWidth w := by omega
    simp only [loadCondition, hext, if_pos hne]
    obtain ⟨hval, hkeep, hsub, hused', hfits', hregs⟩ :=
      intoExtended_spec hD.ops (A := A) (c := ⟨used, []⟩) (p := p) (s := s) false hw.1 hlt hW hused
    set c := ((⟨used, []⟩ : Ctx Inst).intoExtended D.ops A p false w (machineWidth w)).2
    set p' := ((⟨used, []⟩ : Ctx Inst).intoExtended D.ops A p false w (machineWidth w)).1
    obtain ⟨hload, hkeep', hused₂, hreg⟩ :=
      loadToReg_spec hD.ops (A := A) (c := c) (p := p') (s := s) (by omega) hfits' hused'
    refine ⟨?_, fun q hq hown => ⟨?_, fun hqr => ?_⟩, ?_, ?_⟩
    · rw [word_eq, hload, hval]
      exact setWidth_word _ hw.2
    · exact (hkeep' q (hsub hq)).trans (hkeep q hq hown)
    · subst hqr
      obtain ⟨hsalvage, hmem⟩ := hregs _ (hreg (hsub hq)) hq
      exact hown hsalvage hmem
    · rw [hused₂]
      exact Finset.mem_insert_self _ _
    · rw [hused₂]
      exact hsub.trans (Finset.subset_insert _ _)
  · have heq : machineWidth w = w := (not_not.mp hne).symm
    simp only [loadCondition, hext, if_neg hne]
    match p, hused, hfits with
    | .reg src false, hused, _ =>
      have hfresh := A.fresh used
      refine ⟨?_, fun q hq _ => ⟨?_, ne_of_mem_of_not_mem hq hfresh⟩, ?_, ?_⟩
      · rw [word_eq, heq]
        exact congrArg (BitVec.setWidth 64) (hD.mov_self (heq ▸ hW) _ _ s)
      · exact hD.mov_other w s (ne_of_mem_of_not_mem hq hfresh)
      · exact Finset.mem_insert_self _ _
      · exact Finset.subset_insert _ _
    | .reg src true, hused, _ =>
      have hsrc : src ∈ used := hused (by simp [Part.regs])
      refine ⟨?_, fun q _ hown => ⟨rfl, fun hqr => ?_⟩, hsrc, subset_rfl⟩
      · rw [word_eq, heq]
        rfl
      · have hqr : q = src := hqr
        exact hown rfl (by simp [Part.regs, hqr])
    | .const data size, hused, hfits =>
      have hfresh := A.fresh used
      refine ⟨?_, fun q hq _ => ⟨?_, ne_of_mem_of_not_mem hq hfresh⟩, ?_, ?_⟩
      · rw [word_eq, heq]
        exact congrArg (BitVec.setWidth 64) (hD.ops.materialize_self data size _ s hw.2 hfits)
      · exact hD.ops.materialize_other data size s (ne_of_mem_of_not_mem hq hfresh)
      · exact Finset.mem_insert_self _ _
      · exact Finset.subset_insert _ _

end

/-! ### The cases -/

section
variable {w : ℕ} {B : Type} (cases : List (BitVec w × B))

theorem sortCases_perm : (sortCases cases).Perm (cases.map fun c => (c.1.setWidth 64, c.2)) :=
  List.mergeSort_perm ..

theorem length_sortCases : (sortCases cases).length = cases.length := by
  rw [(sortCases_perm cases).length_eq, List.length_map]

theorem setWidth_inj (hw : w ≤ 64) {x y : BitVec w} (h : x.setWidth 64 = y.setWidth 64) : x = y := by
  have h := congrArg BitVec.toNat h
  rw [BitVec.toNat_setWidth_of_le hw, BitVec.toNat_setWidth_of_le hw] at h
  exact BitVec.eq_of_toNat_eq h

/-- Distinct values ascend strictly. -/
theorem sortCases_pairwise (hw : w ≤ 64) (hnodup : (cases.map Prod.fst).Nodup) :
    ((sortCases cases).map Prod.fst).Pairwise fun x y => x.toNat < y.toNat := by
  have hle : (sortCases cases).Pairwise fun x y => x.1.toNat ≤ y.1.toNat := by
    have h := @List.pairwise_mergeSort _ (fun x y : BitVec 64 × B => decide (x.1 ≤ y.1))
      (fun x y z hxy hyz => by
        simp only [decide_eq_true_eq, BitVec.le_def] at hxy hyz ⊢
        exact hxy.trans hyz)
      (fun x y => by
        simp only [Bool.or_eq_true, decide_eq_true_eq, BitVec.le_def]
        exact Nat.le_total _ _) (cases.map fun c => (c.1.setWidth 64, c.2))
    exact h.imp fun h => by simpa [BitVec.le_def] using h
  have hdistinct : ((sortCases cases).map Prod.fst).Nodup := by
    rw [((sortCases_perm cases).map Prod.fst).nodup_iff, List.map_map]
    have h : ((cases.map Prod.fst).map (BitVec.setWidth 64)).Nodup :=
      hnodup.map fun _ _ h => setWidth_inj hw h
    rwa [List.map_map] at h
  rw [List.Nodup, List.pairwise_map] at hdistinct
  rw [List.pairwise_map]
  exact (hle.and hdistinct).imp fun ⟨hle, hne⟩ => lt_of_le_of_ne hle fun h => hne (BitVec.eq_of_toNat_eq h)

/-- The block of a value is that of the case with the value. -/
theorem destination_of_mem (hnodup : (cases.map Prod.fst).Nodup) (defaultDest : B) {c : BitVec w × B}
    (hc : c ∈ cases) :
    destination cases defaultDest c.1 = c.2 := by
  cases hfind : cases.find? fun d => d.1 == c.1 with
  | none => exact absurd (List.find?_eq_none.mp hfind c hc) (by simp)
  | some d =>
    have heq : d.1 = c.1 := by simpa using List.find?_some hfind
    have hsame : d = c := List.inj_on_of_nodup_map hnodup (List.mem_of_find?_eq_some hfind) hc heq
    rw [destination, hfind, hsame]
    rfl

theorem destination_of_not_mem (defaultDest : B) {x : BitVec w} (h : ∀ c ∈ cases, c.1 ≠ x) :
    destination cases defaultDest x = defaultDest := by
  have hfind : cases.find? (fun c => c.1 == x) = none :=
    List.find?_eq_none.mpr fun c hc => by simpa using h c hc
  rw [destination, hfind]
  rfl

end

/-! ### The whole switch -/

section
variable {w : ℕ} {B : Type} {cases : List (BitVec w × B)} {next : ℕ} {cmpReg tmpReg : Reg} {widthIs32 : Bool}

theorem ofCases_value {sorted : List (BitVec 64 × B)} {i : ℕ} (hi : i < sorted.length) :
    (Search.ofCases sorted next cmpReg tmpReg widthIs32).value i = (sorted[i]).1 := by
  simp [Search.value, Search.ofCases, List.getD_eq_getElem?_getD, hi]

theorem ofCases_caseLabel {sorted : List (BitVec 64 × B)} {i : ℕ} (hi : i < sorted.length) :
    (Search.ofCases sorted next cmpReg tmpReg widthIs32).caseLabel i = next + i := by
  simp [Search.caseLabel, Search.ofCases, List.getD_eq_getElem?_getD, hi]

theorem exists_case {c : BitVec 64 × B} (h : c ∈ sortCases cases) : ∃ d ∈ cases,
    c = (d.1.setWidth 64, d.2) := by
  obtain ⟨d, hd, rfl⟩ := List.mem_map.mp ((sortCases_perm cases).mem_iff.mp h)
  exact ⟨d, hd, rfl⟩

theorem ofCases_ok (hw : w ≤ 64) (hnodup : (cases.map Prod.fst).Nodup) :
    (Search.ofCases (sortCases cases) next cmpReg tmpReg (w ≤ 32)).Ok where
  ascending i j hij hj := by
    have hlen : (sortCases cases).length = ((sortCases cases).map Prod.fst).length :=
      (List.length_map ..).symm
    have hj : j < ((sortCases cases).map Prod.fst).length := hj
    have hlt := List.pairwise_iff_getElem.mp (sortCases_pairwise cases hw hnodup) i j (by omega) hj hij
    rw [ofCases_value (by omega), ofCases_value (by omega)]
    simpa using hlt
  narrow i hi hnarrow := by
    have hi : i < (sortCases cases).length := by simpa [Search.ofCases] using hi
    obtain ⟨d, -, heq⟩ := exists_case (List.getElem_mem hi)
    have hw32 : w ≤ 32 := by simpa [Search.ofCases] using hnarrow
    rw [ofCases_value hi, heq, BitVec.toNat_setWidth_of_le hw]
    exact d.1.isLt.trans_le (Nat.pow_le_pow_right (by omega) hw32)
  length_caseLabels := by simp [Search.ofCases]

/-- The block of the label that the search ends at. -/
theorem Search.Lands.destination (hw : w ≤ 64) (hnodup : (cases.map Prod.fst).Nodup) (defaultDest : B)
    {x : BitVec w} {l : ℕ}
    (h : (Search.ofCases (sortCases cases) next cmpReg tmpReg widthIs32).Lands 0
      (sortCases cases).length (x.setWidth 64) l) :
    (∃ i, ∃ hi : i < (sortCases cases).length, l = next + i ∧
      Switch.destination cases defaultDest x = ((sortCases cases)[i]).2) ∨
      l = next + (sortCases cases).length ∧ Switch.destination cases defaultDest x = defaultDest := by
  rcases h with ⟨i, -, hi, hvalue, rfl⟩ | ⟨hnone, rfl⟩
  · obtain ⟨d, hd, heq⟩ := exists_case (List.getElem_mem hi)
    rw [ofCases_value hi, heq] at hvalue
    refine .inl ⟨i, hi, ofCases_caseLabel hi, ?_⟩
    rw [← setWidth_inj hw hvalue, destination_of_mem cases hnodup defaultDest hd, heq]
  · refine .inr ⟨rfl, destination_of_not_mem cases defaultDest fun d hd heq => ?_⟩
    obtain ⟨i, hi, hget⟩ :=
      List.mem_iff_getElem.mp ((sortCases_perm cases).mem_iff.mpr (List.mem_map_of_mem hd))
    refine hnone i (Nat.zero_le _) hi ?_
    rw [ofCases_value hi, ← heq]
    exact congrArg Prod.fst hget

end

section
variable {Inst I B : Type} {D : Derived Inst I B}

theorem labels_branches (l : ℕ) (b : B) (cases : List (ℕ × B)) :
    labels (branches D l b cases) = l :: cases.map Prod.fst := by
  rw [branches, labels_label, labels_inst]
  congr 1
  induction cases with
  | nil => rfl
  | cons c cases ih =>
    rw [List.flatMap_cons, labels_append, ih]
    rfl

theorem branches_at {code : Code I} {a : ℕ} {cases : List (ℕ × B)}
    (hat : CodeAt D.isa code a (cases.flatMap fun c => [.label c.1, .inst (D.branchToBlock c.2)]))
    {c : ℕ × B} (hc : c ∈ cases) :
    ∃ a', CodeAt D.isa code a' [.label c.1, .inst (D.branchToBlock c.2)] := by
  induction cases generalizing a with
  | nil => cases hc
  | cons d cases ih =>
    rw [List.flatMap_cons] at hat
    rcases List.mem_cons.mp hc with rfl | hc
    · exact ⟨a, hat.left⟩
    · exact ih hat.right hc

variable (hD : D.Ok) (A : Alloc) {used : Finset Reg} {off next w : ℕ} {cond : Operand w}
    {cases : List (BitVec w × B)} {defaultDest : B}
  {code : Code I}
include hD

/-- Every label is placed once. -/
theorem compileSwitch_labels (h : compileSwitch D A used off next cond cases defaultDest = some code) :
    (labels code).Nodup := by
  unfold compileSwitch at h
  split_ifs at h
  have hcode := Option.some.inj h
  obtain ⟨-, hnodup, hmem⟩ :=
    buildRange_labels hD (Search.ofCases (sortCases cases) next (loadCondition D A ⟨used, []⟩ cond.part0 w).1
    (A.pick (loadCondition D A ⟨used, []⟩ cond.part0 w).2.used) (w ≤ 32))
    (off + length D.isa ((loadCondition D A ⟨used, []⟩ cond.part0 w).2.code.map fun i =>
      (.inst (D.op i) : Item I ℕ)))
    (next + (sortCases cases).length + 1) 0 (sortCases cases).length
  rw [← hcode, labels_append, labels_map_inst, List.nil_append, labels_append, labels_branches,
    List.map_fst_zip (by simp [Search.ofCases])]
  refine List.nodup_append'.mpr ⟨hnodup, List.nodup_cons.mpr ⟨fun h => ?_, List.nodup_range'⟩,
    fun l hl hl' => ?_⟩
  · have h : next + (sortCases cases).length ∈ List.range' next (sortCases cases).length := h
    have := List.mem_range'_1.mp h
    omega
  · have hl := hmem l hl
    have hl' : l ∈ (next + (sortCases cases).length) :: List.range' next (sortCases cases).length := hl'
    rcases List.mem_cons.mp hl' with rfl | hl'
    · omega
    · have := List.mem_range'_1.mp hl'
      omega

/-- **A switch goes to the block of its condition**, and keeps the registers in use but for
one that the condition owns. -/
theorem compileSwitch_runs (hw : 0 < w) (hused : cond.part0.regs ⊆ used) (hnodup : (cases.map Prod.fst).Nodup)
    (h : compileSwitch D A used off next cond cases defaultDest = some code)
    (hsize : length D.isa code < 2 ^ 31) (s : State) :
    ∃ s', Runs D.isa code (.run 0 s) (.left (destination cases defaultDest (cond.value s)) s') ∧
      ∀ q ∈ used, (cond.part0.canSalvage = true → q ∉ cond.part0.regs) → s'.regs q = s.regs q := by
  have hlabels := compileSwitch_labels hD A h
  unfold compileSwitch at h
  split_ifs at h with hw64
  have hw64 : w ≤ 64 := by omega
  have hload := loadCondition_spec hD A ⟨hw, hw64⟩ hused (cond.part0_fits hw64) s
  rw [cond.part0_val s hw64] at hload
  set c := loadCondition D A ⟨used, []⟩ cond.part0 w
  have hfresh := A.fresh c.2.used
  have hregs : c.1 ≠ A.pick c.2.used := ne_of_mem_of_not_mem hload.reg_used hfresh
  set sorted := sortCases cases with hsorted
  set S := Search.ofCases sorted next c.1 (A.pick c.2.used) (w ≤ 32)
  set load : Code I := c.2.code.map fun i => .inst (D.op i)
  set search := buildRange D S (off + length D.isa load) (S.defaultLabel + 1) 0 sorted.length
  set stubs := branches D S.defaultLabel defaultDest (S.caseLabels.zip (sorted.map Prod.snd))
  have hat : CodeAt D.isa code 0 (load ++ (search.1 ++ stubs)) := by
    have hcode : load ++ (search.1 ++ stubs) = code := Option.some.inj h
    rw [hcode]
    exact CodeAt.self code
  have hstubs := hat.right.right
  have hcase : ∀ i (hi : i < sorted.length), ∃ a,
    CodeAt D.isa code a [.label (next + i), .inst (D.branchToBlock (sorted[i]).2)] := by
    intro i hi
    refine branches_at (c := (next + i, (sorted[i]).2)) hstubs.behind.tail
      (List.mem_iff_getElem.mpr ⟨i, ?_, ?_⟩)
    · simpa [S, Search.ofCases] using hi
    · simp [S, Search.ofCases]
  obtain ⟨l, s', hlands, hkeep, hrun⟩ :=
    buildRange_runs hD (ofCases_ok hw64 hnodup) hregs (fun l => (offset D.isa code l).getD 0)
    hlabels hsize
    (fun i hi => by
      have hi : i < sorted.length := by simpa [Search.ofCases] using hi
      obtain ⟨a, ha⟩ := hcase i hi
      rw [ofCases_caseLabel hi, ha.offset hlabels]
      rfl)
    (by rw [hstubs.offset hlabels]; rfl) _ _ 0 sorted.length
      (Nat.zero_le _) (by simp [Search.ofCases, hsorted]) hat.right.left
    (run D.ops.exec c.2.code s)
  have hrun₁ : Runs D.isa code (.run 0 s) (.run (0 + length D.isa load) (run D.ops.exec c.2.code s)) :=
    CodeAt.straight (hD.op _ _) c.2.code hat
  refine ⟨s', (hrun₁.trans hrun).trans ?_, fun q hq hown => ?_⟩
  · rw [show word S.widthIs32 ((run D.ops.exec c.2.code s).regs S.cmpReg) =
      (cond.value s).setWidth 64 from hload.value] at hlands
    rcases hlands.destination hw64 hnodup defaultDest with ⟨i, hi, rfl, hdest⟩ | ⟨rfl, hdest⟩
    · obtain ⟨a, ha⟩ := hcase i hi
      rw [hdest, ha.offset hlabels]
      exact ha.behind.exit (hD.branchToBlock _ _ _ s')
    · have hdefault := hstubs.offset hlabels
      rw [hdest, show next + (sortCases cases).length = S.defaultLabel from rfl, hdefault]
      exact hstubs.behind.exit (hD.branchToBlock _ _ _ s')
  · obtain ⟨hsame, hne⟩ := hload.keeps q hq hown
    exact (hkeep q hne (ne_of_mem_of_not_mem (hload.used_subset hq) hfresh)).trans hsame

end

/-- A register behind those in use. -/
def behind : Alloc where
  pick used := used.sup id + 1
  fresh _ h := absurd (Finset.le_sup (f := id) h) (Nat.not_succ_le_self _)

end Tpde.Switch
