import Tpde.Cfg
import Tpde.Library.While
import Tpde.Library.ReversePostOrder
import Tpde.Library.RpoGraph

/-!
# The block order

`Analyzer::build_rpo_block_order`: a depth-first search with an explicit stack
that leaves the reachable blocks in reverse post-order, numbers them, and notes
which blocks have more than one incoming edge. The children of a block are
sorted by their number in the function before they are searched.

The stack holds the blocks that are being searched (`Stk`, its second list) and,
above each, the children of it that are still to do. `Inv` is what a round of
the loop keeps; `buildRpoBlockOrder_spec` is what the result satisfies.
-/

namespace Tpde.Analyzer

open FlowGraph

/-- `block_info2`: two bits that count incoming edges up to two, and the flags `0b100`
(children pushed), `0b1000` (on the RPO list) and `0b1'0000` (has phis). -/
structure BlockInfo2 where
  incoming : ℕ
  visited : Bool
  onRpo : Bool
  hasPhis : Bool
  deriving DecidableEq, Repr

/-- `block_set_info2(cur, 0)`. -/
def BlockInfo2.zero : BlockInfo2 := ⟨0, false, false, false⟩

/-- One more incoming edge. -/
def BlockInfo2.addIncoming (i : BlockInfo2) : BlockInfo2 :=
  if i.incoming ≠ 0 then
    if i.incoming = 1 then { i with incoming := 2 } else i
  else { i with incoming := 1 }

/-- `block_info2(cur) | 0b100`. -/
def BlockInfo2.markVisited (i : BlockInfo2) : BlockInfo2 := { i with visited := true }

/-- `block_info2(cur) | 0b1000`. -/
def BlockInfo2.markOnRpo (i : BlockInfo2) : BlockInfo2 := { i with onRpo := true }

@[simp] theorem BlockInfo2.markVisited_visited (i : BlockInfo2) : i.markVisited.visited = true := rfl

@[simp] theorem BlockInfo2.markVisited_onRpo (i : BlockInfo2) : i.markVisited.onRpo = i.onRpo := rfl

@[simp] theorem BlockInfo2.markOnRpo_visited (i : BlockInfo2) : i.markOnRpo.visited = i.visited := rfl

@[simp] theorem BlockInfo2.markOnRpo_onRpo (i : BlockInfo2) : i.markOnRpo.onRpo = true := rfl

@[simp] theorem BlockInfo2.addIncoming_visited (i : BlockInfo2) : i.addIncoming.visited = i.visited := by
  unfold addIncoming; split_ifs <;> rfl

@[simp] theorem BlockInfo2.addIncoming_onRpo (i : BlockInfo2) : i.addIncoming.onRpo = i.onRpo := by
  unfold addIncoming; split_ifs <;> rfl

variable {B : Type}

/-- The state of the loop: the stack (top first), the words that the adaptor keeps for each block,
the part of `out` that is filled, and the index before it (`-1` stands for `0xFFFF'FFFF`). -/
structure RpoState (B : Type) where
  stack : List B
  blockInfo : B → ℕ
  blockInfo2 : B → BlockInfo2
  out : List B
  rpoIdx : ℤ

section
variable [DecidableEq B] (A : Cfg B)

/-- The initial block info, `rpo_idx = num_blocks - 1`, and the entry on the stack. -/
def RpoState.init : RpoState B where
  stack := [A.curEntryBlock]
  blockInfo b := A.curBlocks.idxOf b
  blockInfo2 _ := .zero
  out := []
  rpoIdx := A.curBlocks.length - 1

/-- A successor: count the edge, and push the block unless it is visited or on the list. -/
def pushSucc (st : (B → BlockInfo2) × List B) (succ : B) : (B → BlockInfo2) × List B :=
  let info2 := Function.update st.1 succ (st.1 succ).addIncoming
  if (info2 succ).visited || (info2 succ).onRpo then (info2, st.2) else (info2, st.2 ++ [succ])

/-- The pushed children in the order of the function; the swap of two children is a case of it. -/
def sortChildren (info : B → ℕ) (children : List B) : List B :=
  children.insertionSort fun lhs rhs => info lhs ≤ info rhs

/-- One round of `while (!stack.empty())`. -/
def rpoStep (s : RpoState B) : RpoState B :=
  match s.stack with
  | [] => s
  | curNode :: stack =>
    if (s.blockInfo2 curNode).onRpo then { s with stack := stack }
    else if (s.blockInfo2 curNode).visited then
      { stack := stack
        blockInfo := Function.update s.blockInfo curNode s.rpoIdx.toNat
        blockInfo2 := Function.update s.blockInfo2 curNode (s.blockInfo2 curNode).markOnRpo
        out := curNode :: s.out
        rpoIdx := s.rpoIdx - 1 }
    else
      let info2 := Function.update s.blockInfo2 curNode (s.blockInfo2 curNode).markVisited
      let pushed := (A.blockSuccs curNode).foldl pushSucc (info2, [])
      -- the last child is on top
      { s with stack := (sortChildren s.blockInfo pushed.2).reverse ++ s.stack, blockInfo2 := pushed.1 }

/-- Enough rounds: each block is entered once and pushes at most its successors. -/
def rpoFuel : ℕ := 1 + (A.curBlocks.map fun b => (A.blockSuccs b).length + 1).sum

/-- The loop. -/
def rpoLoop : RpoState B :=
  While.run (fun s => !s.stack.isEmpty) (rpoStep A) (rpoFuel A) (RpoState.init A)

/-- `block_set_info` for every block of a list, with a value for each place. -/
def setInfos (out : List B) (val : ℕ → ℕ) (info : B → ℕ) : B → ℕ :=
  out.zipIdx.foldl (fun info bi => Function.update info bi.1 (val bi.2)) info

/-- The fix-up of the numbers when there are unreachable blocks. -/
def fixupInfo (out : List B) (info : B → ℕ) : B → ℕ := setInfos out id info

/-- `build_rpo_block_order`: the order, and the adaptor's words after it. A debug build also marks the
numbers of unreachable blocks. -/
def buildRpoBlockOrder : RpoState B :=
  let s := rpoLoop A
  if s.rpoIdx ≠ -1 then { s with blockInfo := fixupInfo s.out s.blockInfo } else s

end

/-! ### The stack -/

/-- A block that may stand above the searched blocks `path`: the entry, or a child of the last. -/
def Link (A : Cfg B) : List B → B → Prop
  | [], c => c = A.curEntryBlock
  | g :: _, c => A.Edge g c

/-- The stack with the blocks that are being searched, from the top. `vis` grows on the way down:
it holds what is visited, and the children pending further up. -/
inductive Stk (A : Cfg B) : Set B → List B → List B → Prop where
  /-- Below everything: the entry has been seen. -/
  | nil {vis : Set B} (h : A.curEntryBlock ∈ vis) : Stk A vis [] []
  /-- A pending child. -/
  | pend {vis : Set B} {c : B} {st path : List B} (hl : Link A path c) (hc : c ∉ path)
      (h : Stk A (insert c vis) st path) : Stk A vis (c :: st) path
  /-- A block that is being searched: its children are visited or pending above it. -/
  | gray {vis : Set B} {g : B} {st path : List B} (hs : ∀ c, A.Edge g c → c ∈ vis) (hl : Link A path g)
      (h : Stk A vis st path) : Stk A vis (g :: st) (g :: path)

theorem Stk.mono {A : Cfg B} {vis vis' : Set B} {st path : List B} (h : Stk A vis st path) (hv : vis ⊆ vis') :
    Stk A vis' st path := by
  induction h generalizing vis' with
  | nil h => exact .nil (hv h)
  | pend hl hc _ ih => exact .pend hl hc (ih (Set.insert_subset_insert hv))
  | gray hs hl _ ih => exact .gray (fun c hc => hv (hs c hc)) hl (ih hv)

/-- Push the children of the block on top. -/
theorem Stk.push {A : Cfg B} {g : B} {path : List B} (cs : List B) :
    ∀ {vis : Set B} {st : List B}, (∀ c ∈ cs, A.Edge g c ∧ c ∉ g :: path) →
      Stk A (vis ∪ {c | c ∈ cs}) st (g :: path) → Stk A vis (cs ++ st) (g :: path) := by
  induction cs with
  | nil => intro vis st _ h; simpa using h
  | cons c cs ih =>
    intro vis st hcs h
    refine .pend (hcs c (by simp)).1 (hcs c (by simp)).2 (ih (fun d hd => hcs d (by simp [hd])) (h.mono ?_))
    rintro x (hx | hx)
    · exact .inl (Set.mem_insert_of_mem _ hx)
    · rcases List.mem_cons.mp hx with rfl | hx
      · exact .inl (Set.mem_insert _ _)
      · exact .inr hx

/-! ### The invariant -/

/-- The blocks found below a searched block: what was put on the list since it was entered. -/
def Since (A : Cfg B) (out above : List B) (g : B) : Prop :=
  ∃ pre suf, out = pre ++ suf ∧
    (∀ z, z ∈ pre ∨ z ∈ above → ReachIn A.Edge {x | x = g ∨ x ∈ above ∨ x ∈ pre} g z) ∧
    ∀ x ∈ suf, ¬ A.Edge x g

/-- `p` stands in front of `b` in the list. -/
def Before (out : List B) (p b : B) : Prop := ∃ l₁ l₂, out = l₁ ++ b :: l₂ ∧ p ∈ l₁

theorem Before.cons {out : List B} {p b : B} (h : Before out p b) (t : B) : Before (t :: out) p b := by
  obtain ⟨l₁, l₂, rfl, hp⟩ := h
  exact ⟨t :: l₁, l₂, rfl, List.mem_cons_of_mem _ hp⟩

theorem before_cons {out : List B} (t : B) {b : B} (h : b ∈ out) : Before (t :: out) t b := by
  obtain ⟨l₁, l₂, rfl⟩ := List.append_of_mem h
  exact ⟨t :: l₁, l₂, rfl, List.mem_cons_self⟩

/-- The blocks of the function that are visited. -/
def Visited (s : RpoState B) : Set B := {b | (s.blockInfo2 b).visited = true}

/-- What a round of the loop keeps: `path` are the blocks that are being searched. -/
structure Inv (A : Cfg B) (s : RpoState B) (path : List B) : Prop where
  stk : Stk A (Visited s) s.stack path
  path_iff : ∀ b, b ∈ path ↔ (s.blockInfo2 b).visited = true ∧ (s.blockInfo2 b).onRpo = false
  out_iff : ∀ b, b ∈ s.out ↔ (s.blockInfo2 b).onRpo = true
  out_visited : ∀ b ∈ s.out, (s.blockInfo2 b).visited = true
  path_nodup : path.Nodup
  /-- A block on the list has been searched. -/
  closed : ∀ b ∈ s.out, ∀ c, A.Edge b c → (s.blockInfo2 c).visited = true
  rpo : RevPostOrder A.Edge s.out
  since : ∀ above g below, path = above ++ g :: below → Since A s.out above g
  parent : ∀ b ∈ s.out, b = A.curEntryBlock ∨ ∃ p, A.Edge p b ∧ (p ∈ path ∨ Before s.out p b)
  mem : ∀ b, b ∈ s.stack ∨ (s.blockInfo2 b).visited = true → b ∈ A.curBlocks ∧ Reach A.Edge A.curEntryBlock b
  rpoIdx : s.rpoIdx + s.out.length + 1 = A.curBlocks.length
  /-- Each block of the list has the number of its place from the end. -/
  info : ∀ i b, s.out[i]? = some b → s.blockInfo b + s.out.length = A.curBlocks.length + i

section
variable [DecidableEq B] {A : Cfg B}

theorem inv_init : Inv A (RpoState.init A) [] where
  stk := .pend rfl (by simp) (.nil (Set.mem_insert _ _))
  path_iff b := by simp [RpoState.init, BlockInfo2.zero]
  out_iff b := by simp [RpoState.init, BlockInfo2.zero]
  out_visited b h := by simp [RpoState.init] at h
  path_nodup := List.nodup_nil
  closed b h := by simp [RpoState.init] at h
  rpo := .nil
  since above g below h := by simp at h
  parent b h := by simp [RpoState.init] at h
  mem b h := by
    have hb : b = A.curEntryBlock := by simpa [RpoState.init, BlockInfo2.zero] using h
    subst hb
    exact ⟨A.entry_mem, Relation.ReflTransGen.refl⟩
  rpoIdx := by simp [RpoState.init]
  info i b h := by simp [RpoState.init] at h

/-! ### The rounds -/

omit [DecidableEq B] in
/-- A block that is on the list already is dropped. -/
theorem Inv.drop {s : RpoState B} {path stack : List B} {c : B} (h : Inv A s path) (hs : s.stack = c :: stack)
    (hc : (s.blockInfo2 c).onRpo = true) : Inv A { s with stack := stack } path := by
  have hstk := h.stk
  rw [hs] at hstk
  cases hstk with
  | pend _ _ hst =>
    have hv : c ∈ Visited s := h.out_visited c ((h.out_iff c).mpr hc)
    rw [Set.insert_eq_of_mem hv] at hst
    exact { h with
      stk := hst
      mem := fun b hb => h.mem b (hb.imp_left fun hb => hs ▸ List.mem_cons_of_mem _ hb) }
  | gray _ _ _ =>
    have := (h.path_iff c).mp List.mem_cons_self
    rw [hc] at this
    exact absurd this.2 (by simp)

/-- The block on top has been searched: it goes in front of the list. -/
theorem Inv.place {s : RpoState B} {path stack : List B} {c : B} (h : Inv A s path)
    (hs : s.stack = c :: stack)
    (hr : (s.blockInfo2 c).onRpo = false) (hv : (s.blockInfo2 c).visited = true) :
    ∃ path', path = c :: path' ∧ Inv A
      { stack := stack
        blockInfo := Function.update s.blockInfo c s.rpoIdx.toNat
        blockInfo2 := Function.update s.blockInfo2 c (s.blockInfo2 c).markOnRpo
        out := c :: s.out
        rpoIdx := s.rpoIdx - 1 } path' := by
  have hcpath : c ∈ path := (h.path_iff c).mpr ⟨hv, hr⟩
  have hcout : c ∉ s.out := fun hc => by simp [(h.out_iff c).mp hc] at hr
  have hstk := h.stk
  rw [hs] at hstk
  cases hstk with
  | pend _ hc _ => exact absurd hcpath hc
  | @gray _ _ _ path hsucc hlink hst =>
    have hnd := List.nodup_cons.mp h.path_nodup
    have hvis : ∀ b, (Function.update s.blockInfo2 c (s.blockInfo2 c).markOnRpo b).visited =
        (s.blockInfo2 b).visited := by
      intro b
      by_cases hb : b = c
      · subst hb; simp
      · rw [Function.update_of_ne hb]
    have hrpo : ∀ b, b ≠ c →
        (Function.update s.blockInfo2 c (s.blockInfo2 c).markOnRpo b).onRpo = (s.blockInfo2 b).onRpo :=
      fun b hb => by rw [Function.update_of_ne hb]
    have hlen : s.out.length + 1 ≤ A.curBlocks.length := by
      have hsub : (c :: s.out) ⊆ A.curBlocks := by
        intro b hb
        rcases List.mem_cons.mp hb with rfl | hb
        · exact (h.mem _ (.inr hv)).1
        · exact (h.mem b (.inr (h.out_visited b hb))).1
      have hnd' : (c :: s.out).Nodup := List.nodup_cons.mpr ⟨hcout, h.rpo.nodup⟩
      simpa using (List.subperm_of_subset hnd' hsub).length_le
    refine ⟨path, rfl, ?_⟩
    constructor
    · refine hst.mono fun b hb => ?_
      simpa [Visited, hvis] using hb
    · intro b
      rw [hvis]
      by_cases hb : b = c
      · subst hb
        simpa using hnd.1
      · rw [hrpo b hb, ← h.path_iff b]
        simp [hb]
    · intro b
      by_cases hb : b = c
      · subst hb; simp
      · rw [hrpo b hb, ← h.out_iff b]
        simp [hb]
    · intro b hb
      rw [hvis]
      rcases List.mem_cons.mp hb with rfl | hb
      · exact hv
      · exact h.out_visited b hb
    · exact hnd.2
    · intro b hb d hd
      rw [hvis]
      rcases List.mem_cons.mp hb with rfl | hb
      · exact hsucc d hd
      · exact h.closed b hb d hd
    · obtain ⟨pre, suf, hout, hpre, hsuf⟩ := h.since [] c path rfl
      have hrev := h.rpo
      simp only [hout] at hrev hcout ⊢
      exact .cons hrev hcout (fun z hz => (hpre z (.inl hz)).mono (by simp)) hsuf
    · rintro above g below rfl
      obtain ⟨pre, suf, hout, hpre, hsuf⟩ := h.since (c :: above) g below rfl
      refine ⟨c :: pre, suf, by simp [hout], fun z hz => ?_, hsuf⟩
      refine (hpre z ?_).mono ?_
      · simpa [or_assoc, or_left_comm] using hz
      · rintro x (hx | hx | hx)
        · exact .inl hx
        · rcases List.mem_cons.mp hx with rfl | hx
          · exact .inr (.inr List.mem_cons_self)
          · exact .inr (.inl hx)
        · exact .inr (.inr (List.mem_cons_of_mem _ hx))
    · intro b hb
      rcases List.mem_cons.mp hb with rfl | hbo
      · cases path with
        | nil => exact .inl hlink
        | cons g path => exact .inr ⟨g, hlink, .inl List.mem_cons_self⟩
      · refine (h.parent b hbo).imp_right ?_
        rintro ⟨p, hp, hpp | hpb⟩
        · rcases List.mem_cons.mp hpp with rfl | hpp
          · exact ⟨_, hp, .inr (before_cons _ hbo)⟩
          · exact ⟨p, hp, .inl hpp⟩
        · exact ⟨p, hp, .inr (hpb.cons _)⟩
    · intro b hb
      rw [hvis] at hb
      exact h.mem b (hb.imp_left fun hb => hs ▸ List.mem_cons_of_mem _ hb)
    · have := h.rpoIdx
      simp only [List.length_cons, Nat.cast_add, Nat.cast_one]
      omega
    · intro i b hi
      have hidx := h.rpoIdx
      cases i with
      | zero =>
        obtain rfl : c = b := by simpa using hi
        simp only [Function.update_self, List.length_cons]
        omega
      | succ i =>
        simp only [List.getElem?_cons_succ] at hi
        have hbc : b ≠ c := fun hb => hcout (hb ▸ List.mem_of_getElem? hi)
        have := h.info i b hi
        simp only [Function.update_of_ne hbc, List.length_cons]
        omega

/-- Counting the edges and collecting the children leaves the flags alone. -/
theorem foldl_pushSucc (succs : List B) (st : (B → BlockInfo2) × List B) :
    (∀ b, ((succs.foldl pushSucc st).1 b).visited = (st.1 b).visited) ∧
    (∀ b, ((succs.foldl pushSucc st).1 b).onRpo = (st.1 b).onRpo) ∧
    (∀ b, b ∈ (succs.foldl pushSucc st).2 ↔
      b ∈ st.2 ∨ (b ∈ succs ∧ (st.1 b).visited = false ∧ (st.1 b).onRpo = false)) ∧
    (succs.foldl pushSucc st).2.length ≤ st.2.length + succs.length := by
  induction succs generalizing st with
  | nil => simp
  | cons c succs ih =>
    have hfst : (pushSucc st c).1 = Function.update st.1 c (st.1 c).addIncoming := by
      unfold pushSucc
      dsimp only
      split_ifs <;> rfl
    have hv : ∀ b, ((pushSucc st c).1 b).visited = (st.1 b).visited := by
      intro b
      rw [hfst]
      by_cases hb : b = c
      · subst hb; simp
      · rw [Function.update_of_ne hb]
    have hr : ∀ b, ((pushSucc st c).1 b).onRpo = (st.1 b).onRpo := by
      intro b
      rw [hfst]
      by_cases hb : b = c
      · subst hb; simp
      · rw [Function.update_of_ne hb]
    have hm : ∀ b, b ∈ (pushSucc st c).2 ↔
        b ∈ st.2 ∨ (b = c ∧ (st.1 b).visited = false ∧ (st.1 b).onRpo = false) := by
      intro b
      unfold pushSucc
      simp only [Function.update_self, BlockInfo2.addIncoming_visited, BlockInfo2.addIncoming_onRpo,
        Bool.or_eq_true]
      split_ifs with hc
      · constructor
        · exact .inl
        · rintro (hb | ⟨rfl, h1, h2⟩)
          · exact hb
          · simp [h1, h2] at hc
      · simp only [not_or, Bool.not_eq_true] at hc
        simp only [List.mem_append, List.mem_singleton]
        constructor
        · rintro (hb | rfl)
          · exact .inl hb
          · exact .inr ⟨rfl, hc⟩
        · rintro (hb | ⟨rfl, -⟩)
          · exact .inl hb
          · exact .inr rfl
    have hl : (pushSucc st c).2.length ≤ st.2.length + 1 := by
      unfold pushSucc
      dsimp only
      split_ifs <;> simp
    obtain ⟨ih1, ih2, ih3, ih4⟩ := ih (pushSucc st c)
    refine ⟨fun b => ?_, fun b => ?_, fun b => ?_, ?_⟩
    · rw [List.foldl_cons, ih1, hv]
    · rw [List.foldl_cons, ih2, hr]
    · rw [List.foldl_cons, ih3, hm, hv, hr, List.mem_cons]
      tauto
    · rw [List.foldl_cons, List.length_cons]
      omega

omit [DecidableEq B] in
@[simp] theorem mem_sortChildren (info : B → ℕ) (cs : List B) (b : B) : b ∈ sortChildren info cs ↔ b ∈ cs :=
  (List.perm_insertionSort _ cs).mem_iff

omit [DecidableEq B] in
@[simp] theorem length_sortChildren (info : B → ℕ) (cs : List B) :
    (sortChildren info cs).length = cs.length :=
  (List.perm_insertionSort _ cs).length_eq

omit [DecidableEq B] in
/-- A new block on top: it is entered and its children are pushed. -/
theorem Inv.enter {s : RpoState B} {path stack : List B} {c : B} (h : Inv A s path)
    (hs : s.stack = c :: stack)
    (hv : (s.blockInfo2 c).visited = false) {info2 : B → BlockInfo2} {children : List B}
    (hvis : ∀ b, (info2 b).visited = true ↔ b = c ∨ (s.blockInfo2 b).visited = true)
    (hrpo : ∀ b, (info2 b).onRpo = (s.blockInfo2 b).onRpo)
    (hch : ∀ b, b ∈ children ↔ A.Edge c b ∧ (info2 b).visited = false ∧ (info2 b).onRpo = false) :
    Inv A { s with stack := children ++ s.stack, blockInfo2 := info2 } (c :: path) := by
  have hcout : c ∉ s.out := fun hc => by simp [h.out_visited c hc] at hv
  have hcpath : c ∉ path := fun hc => by simp [((h.path_iff c).mp hc).1] at hv
  have hcr : (s.blockInfo2 c).onRpo = false := by
    by_contra hr
    exact hcout ((h.out_iff c).mpr (by simpa using hr))
  have hstk := h.stk
  rw [hs] at hstk
  cases hstk with
  | gray _ _ _ => exact absurd List.mem_cons_self hcpath
  | pend hlink _ hst =>
    constructor
    · rw [hs]
      refine Stk.push children (fun d hd => ?_) (.gray (fun d hd => ?_) hlink (hst.mono ?_))
      · obtain ⟨he, hdv, hdr⟩ := (hch d).mp hd
        refine ⟨he, fun hmem => ?_⟩
        have : (info2 d).visited = true := (hvis d).mpr
          ((List.mem_cons.mp hmem).imp_right fun hd => ((h.path_iff d).mp hd).1)
        simp [this] at hdv
      · by_cases hdv : (info2 d).visited = true
        · exact .inl hdv
        · refine .inr ((hch d).mpr ⟨hd, by simpa using hdv, ?_⟩)
          rw [hrpo]
          by_contra hr
          have := h.out_visited d ((h.out_iff d).mpr (by simpa using hr))
          exact hdv ((hvis d).mpr (.inr this))
      · exact fun b hb => .inl ((hvis b).mpr hb)
    · intro b
      rw [hvis, hrpo, List.mem_cons, h.path_iff b]
      constructor
      · rintro (rfl | hb)
        · exact ⟨.inl rfl, hcr⟩
        · exact ⟨.inr hb.1, hb.2⟩
      · rintro ⟨rfl | hb, hr⟩
        · exact .inl rfl
        · exact .inr ⟨hb, hr⟩
    · intro b
      rw [hrpo]
      exact h.out_iff b
    · exact fun b hb => (hvis b).mpr (.inr (h.out_visited b hb))
    · exact List.nodup_cons.mpr ⟨hcpath, h.path_nodup⟩
    · exact fun b hb d hd => (hvis d).mpr (.inr (h.closed b hb d hd))
    · exact h.rpo
    · intro above g below hpath
      cases above with
      | nil =>
        obtain ⟨rfl, rfl⟩ : c = g ∧ path = below := by simpa using hpath
        refine ⟨[], s.out, rfl, by simp, fun x hx he => ?_⟩
        simp [h.closed x hx c he] at hv
      | cons d above =>
        obtain ⟨rfl, rfl⟩ : c = d ∧ path = above ++ g :: below := by simpa using hpath
        obtain ⟨pre, suf, hout, hpre, hsuf⟩ := h.since above g below rfl
        -- the new block is a child of the last block of the path, which `g` reaches
        have hsub : {x | x = g ∨ x ∈ above ∨ x ∈ pre} ⊆ {x | x = g ∨ x ∈ c :: above ∨ x ∈ pre} := by
          rintro x (hx | hx | hx)
          · exact .inl hx
          · exact .inr (.inl (List.mem_cons_of_mem _ hx))
          · exact .inr (.inr hx)
        have hc : ReachIn A.Edge {x | x = g ∨ x ∈ c :: above ∨ x ∈ pre} g c := by
          have hcmem : c ∈ {x | x = g ∨ x ∈ c :: above ∨ x ∈ pre} := .inr (.inl List.mem_cons_self)
          cases above with
          | nil => exact .single hlink (.inl rfl) hcmem
          | cons a above =>
            refine ((hpre a (.inr List.mem_cons_self)).mono hsub).trans (.single hlink ?_ hcmem)
            exact .inr (.inl (by simp))
        refine ⟨pre, suf, hout, fun z hz => ?_, hsuf⟩
        rcases hz with hz | hz
        · exact (hpre z (.inl hz)).mono hsub
        · rcases List.mem_cons.mp hz with rfl | hz
          · exact hc
          · exact (hpre z (.inr hz)).mono hsub
    · intro b hb
      refine (h.parent b hb).imp_right ?_
      rintro ⟨p, hp, hpp⟩
      exact ⟨p, hp, hpp.imp_left (List.mem_cons_of_mem _)⟩
    · have hcm := h.mem c (.inl (hs ▸ List.mem_cons_self))
      intro b hb
      rcases hb with hb | hb
      · rcases List.mem_append.mp hb with hb | hb
        · have he := ((hch b).mp hb).1
          exact ⟨A.succs_mem c hcm.1 b he, hcm.2.tail he⟩
        · exact h.mem b (.inl hb)
      · rcases (hvis b).mp hb with rfl | hb
        · exact hcm
        · exact h.mem b (.inr hb)
    · exact h.rpoIdx
    · exact h.info

/-- The round that enters a block. -/
theorem rpoStep_enter {s : RpoState B} {stack : List B} {c : B} (hs : s.stack = c :: stack)
    (hr : (s.blockInfo2 c).onRpo = false) (hv : (s.blockInfo2 c).visited = false) :
    rpoStep A s = { s with
      stack := (sortChildren s.blockInfo ((A.blockSuccs c).foldl pushSucc
        (Function.update s.blockInfo2 c (s.blockInfo2 c).markVisited, [])).2).reverse ++ s.stack
      blockInfo2 := ((A.blockSuccs c).foldl pushSucc
        (Function.update s.blockInfo2 c (s.blockInfo2 c).markVisited, [])).1 } := by
  unfold rpoStep
  rw [hs]
  simp [hr, hv]

theorem Inv.enter_step {s : RpoState B} {path stack : List B} {c : B} (h : Inv A s path)
    (hs : s.stack = c :: stack)
    (hr : (s.blockInfo2 c).onRpo = false) (hv : (s.blockInfo2 c).visited = false) :
    Inv A (rpoStep A s) (c :: path) := by
  rw [rpoStep_enter hs hr hv]
  refine h.enter hs hv (fun b => ?_) (fun b => ?_) fun b => ?_
  · rw [(foldl_pushSucc _ _).1]
    by_cases hb : b = c
    · subst hb; simp
    · simp [hb]
  · rw [(foldl_pushSucc _ _).2.1]
    by_cases hb : b = c
    · subst hb; simp
    · simp [hb]
  · rw [(foldl_pushSucc _ _).1, (foldl_pushSucc _ _).2.1, List.mem_reverse, mem_sortChildren,
      (foldl_pushSucc _ _).2.2.1]
    simp [Cfg.Edge]

/-- A round keeps the invariant. -/
theorem rpoStep_inv (s : RpoState B) (h : ∃ path, Inv A s path) (hc : (!s.stack.isEmpty) = true) :
    ∃ path, Inv A (rpoStep A s) path := by
  obtain ⟨path, h⟩ := h
  unfold rpoStep
  split
  · rename_i hs
    simp [hs] at hc
  · rename_i c stack hs
    split_ifs with hr hv
    · exact ⟨path, h.drop hs hr⟩
    · obtain ⟨path', -, h'⟩ := h.place hs (by simpa using hr) hv
      exact ⟨path', h'⟩
    · rw [← rpoStep_enter hs (by simpa using hr) (by simpa using hv)]
      exact ⟨c :: path, h.enter_step hs (by simpa using hr) (by simpa using hv)⟩

/-- Only blocks that are reached have been written to. -/
theorem rpoStep_reach (s : RpoState B) (h : (∃ path, Inv A s path) ∧
    ∀ b, s.blockInfo2 b ≠ .zero → Reach A.Edge A.curEntryBlock b) (hc : (!s.stack.isEmpty) = true) :
    (∃ path, Inv A (rpoStep A s) path) ∧
      ∀ b, (rpoStep A s).blockInfo2 b ≠ .zero → Reach A.Edge A.curEntryBlock b := by
  obtain ⟨hinv, hreach⟩ := h
  refine ⟨rpoStep_inv s hinv hc, ?_⟩
  obtain ⟨path, hinv⟩ := hinv
  have hpush : ∀ (succs : List B) (st : (B → BlockInfo2) × List B) (b : B),
      (succs.foldl pushSucc st).1 b ≠ st.1 b → b ∈ succs := by
    intro succs
    induction succs with
    | nil => exact fun st b hb => absurd rfl hb
    | cons c succs ih =>
      intro st b hb
      by_cases hbc : b = c
      · exact hbc ▸ List.mem_cons_self
      · refine List.mem_cons_of_mem _ (ih (pushSucc st c) b ?_)
        have hfst : (pushSucc st c).1 b = st.1 b := by
          unfold pushSucc
          dsimp only
          split_ifs <;> exact Function.update_of_ne hbc ..
        rwa [hfst]
  unfold rpoStep
  split
  · exact hreach
  · rename_i c stack hs
    have hcm := (hinv.mem c (.inl (hs ▸ List.mem_cons_self))).2
    have hupdate : ∀ (i : BlockInfo2) (b : B), Function.update s.blockInfo2 c i b ≠ .zero →
        Reach A.Edge A.curEntryBlock b := by
      intro i b hb
      by_cases hbc : b = c
      · exact hbc ▸ hcm
      · rw [Function.update_of_ne hbc] at hb
        exact hreach b hb
    split_ifs with hr hv
    · exact hreach
    · exact hupdate _
    · intro b hb
      by_cases hbs : b ∈ A.blockSuccs c
      · exact hcm.tail hbs
      · have heq : ((A.blockSuccs c).foldl pushSucc
            (Function.update s.blockInfo2 c (s.blockInfo2 c).markVisited, [])).1 b =
            Function.update s.blockInfo2 c (s.blockInfo2 c).markVisited b := by
          by_contra hne
          exact hbs (hpush _ _ _ hne)
        refine hupdate (s.blockInfo2 c).markVisited b ?_
        rw [← heq]
        exact hb

/-- The rounds that are left: the stack, and the blocks still to be entered with their successors. -/
def rpoVariant (A : Cfg B) (s : RpoState B) : ℕ :=
  s.stack.length + ∑ b ∈ A.curBlocks.toFinset.filter fun b => (s.blockInfo2 b).visited = false,
    ((A.blockSuccs b).length + 1)

theorem rpoStep_variant (s : RpoState B) (h : ∃ path, Inv A s path) (hc : (!s.stack.isEmpty) = true) :
    rpoVariant A (rpoStep A s) < rpoVariant A s := by
  obtain ⟨path, h⟩ := h
  unfold rpoStep
  split
  · rename_i hs
    simp [hs] at hc
  · rename_i c stack hs
    split_ifs with hr hv
    · simp [rpoVariant, hs]
    · have hvis : ∀ b, (Function.update s.blockInfo2 c (s.blockInfo2 c).markOnRpo b).visited =
          (s.blockInfo2 b).visited := by
        intro b
        by_cases hb : b = c
        · subst hb; simp
        · rw [Function.update_of_ne hb]
      simp [rpoVariant, hs, hvis]
    · -- entering `c` takes its successors out of the sum and puts at most as many on the stack
      have hmem := (h.mem c (.inl (hs ▸ List.mem_cons_self))).1
      have hpush :=
        foldl_pushSucc (A.blockSuccs c) (Function.update s.blockInfo2 c (s.blockInfo2 c).markVisited, [])
      have hfilter : (A.curBlocks.toFinset.filter fun b => (s.blockInfo2 b).visited = false) =
          insert c (A.curBlocks.toFinset.filter fun b =>
            (Function.update s.blockInfo2 c (s.blockInfo2 c).markVisited b).visited = false) := by
        ext b
        by_cases hb : b = c
        · subst hb
          simpa [hmem] using hv
        · simp [hb]
      simp only [rpoVariant, List.length_append, List.length_reverse, length_sortChildren, hpush.1]
      rw [hfilter, Finset.sum_insert (by simp)]
      have := hpush.2.2.2
      simp only [List.length_nil] at this
      omega

theorem rpoFuel_eq : rpoVariant A (RpoState.init A) = rpoFuel A := by
  have : (A.curBlocks.toFinset.filter fun b => ((RpoState.init A).blockInfo2 b).visited = false) =
      A.curBlocks.toFinset := by
    ext b
    simp [RpoState.init, BlockInfo2.zero]
  unfold rpoVariant rpoFuel
  rw [this, List.sum_toFinset _ A.nodup]
  simp [RpoState.init]

/-! ### The order -/

/-- The loop ends with nothing being searched. -/
theorem rpoLoop_spec : Inv A (rpoLoop A) [] ∧ A.curEntryBlock ∈ Visited (rpoLoop A) := by
  have hinv : ∃ path, Inv A (rpoLoop A) path :=
    While.run_inv rpoStep_inv _ _ ⟨[], inv_init⟩
  have hend : (!(rpoLoop A).stack.isEmpty) = false :=
    While.run_end rpoStep_inv (rpoVariant A) rpoStep_variant _ _ ⟨[], inv_init⟩ rpoFuel_eq.le
  obtain ⟨path, h⟩ := hinv
  have hs : (rpoLoop A).stack = [] := by simpa using hend
  have hstk := h.stk
  rw [hs] at hstk
  cases hstk with
  | nil hv => exact ⟨h, hv⟩

/-- Writing a value for each place of a list without duplicates. -/
theorem setInfos_getElem? {out : List B} (hnd : out.Nodup) (val : ℕ → ℕ) {info : B → ℕ} {i : ℕ} {b : B}
    (h : out[i]? = some b) : setInfos out val info b = val i := by
  have key : ∀ (l : List B) (k : ℕ) (info : B → ℕ), l.Nodup → ∀ i b, l[i]? = some b →
      (l.zipIdx k).foldl (fun info bi => Function.update info bi.1 (val bi.2)) info b = val (k + i) := by
    intro l
    induction l with
    | nil => simp
    | cons c l ih =>
      intro k info hnd i b hi
      rw [List.nodup_cons] at hnd
      rw [List.zipIdx_cons, List.foldl_cons]
      cases i with
      | zero =>
        obtain rfl : c = b := by simpa using hi
        -- no later entry is about `c`
        have hrest : ∀ (m : List (B × ℕ)) (f : B → ℕ), (∀ q ∈ m, q.1 ≠ c) →
            m.foldl (fun info bi => Function.update info bi.1 (val bi.2)) f c = f c := by
          intro m
          induction m with
          | nil => simp
          | cons q m ihm =>
            intro f hq
            rw [List.foldl_cons, ihm _ fun r hr => hq r (by simp [hr]),
              Function.update_of_ne (hq q (by simp)).symm]
        rw [hrest _ _ fun q hq hqc => hnd.1 ?_]
        · simp
        · have := List.fst_mem_of_mem_zipIdx hq
          rwa [hqc] at this
      | succ i =>
        rw [ih (k + 1) _ hnd.2 i b (by simpa using hi)]
        congr 1
        omega
  simpa [setInfos] using key out 0 info hnd i b h

/-- **The block order**: the blocks reachable from the entry, once each, the entry first; every other
block stands behind a predecessor; each block's number is its place. -/
theorem buildRpoBlockOrder_spec :
    (∀ b, b ∈ (buildRpoBlockOrder A).out ↔ Reach A.Edge A.curEntryBlock b) ∧
    RevPostOrder A.Edge (buildRpoBlockOrder A).out ∧
    (∀ b ∈ (buildRpoBlockOrder A).out, b = A.curEntryBlock ∨
      ∃ p, A.Edge p b ∧ Before (buildRpoBlockOrder A).out p b) ∧
    ∀ i b, (buildRpoBlockOrder A).out[i]? = some b → (buildRpoBlockOrder A).blockInfo b = i := by
  obtain ⟨h, hentry⟩ := rpoLoop_spec (A := A)
  have hout : (buildRpoBlockOrder A).out = (rpoLoop A).out := by
    unfold buildRpoBlockOrder
    dsimp only
    split_ifs <;> rfl
  have hvis : ∀ b, ((rpoLoop A).blockInfo2 b).visited = true → b ∈ (rpoLoop A).out := by
    intro b hb
    rw [h.out_iff b]
    by_contra hr
    exact List.not_mem_nil ((h.path_iff b).mpr ⟨hb, by simpa using hr⟩)
  have hreach : ∀ b, b ∈ (rpoLoop A).out ↔ Reach A.Edge A.curEntryBlock b := by
    intro b
    refine ⟨fun hb => (h.mem b (.inr (h.out_visited b hb))).2, fun hb => hvis b ?_⟩
    induction hb with
    | refl => exact hentry
    | tail _ he ih => exact h.closed _ (hvis _ ih) _ he
  rw [hout]
  refine ⟨hreach, h.rpo, fun b hb => ?_, fun i b hi => ?_⟩
  · refine (h.parent b hb).imp_right ?_
    rintro ⟨p, hp, hpp | hpb⟩
    · exact absurd hpp List.not_mem_nil
    · exact ⟨p, hp, hpb⟩
  · unfold buildRpoBlockOrder
    dsimp only
    split_ifs with hidx
    · exact setInfos_getElem? h.rpo.nodup id hi
    · have h1 := h.rpoIdx
      have h2 := h.info i b hi
      omega

/-- The blocks that are not on the list are those whose word is 0. -/
theorem blockInfo2_eq_zero_iff {b : B} :
    (buildRpoBlockOrder A).blockInfo2 b = .zero ↔ b ∉ (buildRpoBlockOrder A).out := by
  have hinfo2 : (buildRpoBlockOrder A).blockInfo2 = (rpoLoop A).blockInfo2 ∧
      (buildRpoBlockOrder A).out = (rpoLoop A).out := by
    unfold buildRpoBlockOrder
    dsimp only
    split_ifs <;> exact ⟨rfl, rfl⟩
  constructor
  · intro hb hmem
    rw [hinfo2.2, rpoLoop_spec.1.out_iff b, ← hinfo2.1, hb] at hmem
    exact absurd hmem (by decide)
  · intro hmem
    by_contra hb
    rw [hinfo2.1] at hb
    have hreach : ∀ b, (rpoLoop A).blockInfo2 b ≠ .zero → Reach A.Edge A.curEntryBlock b :=
      (While.run_inv rpoStep_reach _ _ ⟨⟨[], inv_init⟩, fun b hb => absurd rfl hb⟩).2
    exact hmem ((buildRpoBlockOrder_spec.1 b).mpr (hreach b hb))

/-- The entry is the first block of the order. -/
theorem buildRpoBlockOrder_head : (buildRpoBlockOrder A).out[0]? = some A.curEntryBlock := by
  obtain ⟨hreach, hrpo, hpar, -⟩ := buildRpoBlockOrder_spec (A := A)
  cases hout : (buildRpoBlockOrder A).out with
  | nil =>
    have := (hreach A.curEntryBlock).mpr Relation.ReflTransGen.refl
    rw [hout] at this
    exact absurd this List.not_mem_nil
  | cons b out =>
    rw [hout] at hpar
    rcases hpar b List.mem_cons_self with rfl | ⟨p, -, l₁, l₂, heq, hp⟩
    · rfl
    · -- nothing stands in front of the first block
      rw [hout] at hrpo
      cases l₁ with
      | nil => exact absurd hp List.not_mem_nil
      | cons c l₁ =>
        have hnd := hrpo.nodup
        obtain ⟨rfl, hout'⟩ := List.cons_eq_cons.mp heq
        rw [hout'] at hnd
        simp at hnd

/-! ### The blocks by number -/

/-- The number of a block of the order is its place. -/
theorem getElem?_blockInfo {b : B} (hb : b ∈ (buildRpoBlockOrder A).out) :
    (buildRpoBlockOrder A).out[(buildRpoBlockOrder A).blockInfo b]? = some b := by
  obtain ⟨i, hi⟩ := List.mem_iff_getElem?.mp hb
  rw [buildRpoBlockOrder_spec.2.2.2 i b hi]
  exact hi

/-- Successors of blocks of the order are on it. -/
theorem out_succ {b c : B} (hb : b ∈ (buildRpoBlockOrder A).out) (he : A.Edge b c) :
    c ∈ (buildRpoBlockOrder A).out := by
  rw [buildRpoBlockOrder_spec.1] at hb ⊢
  exact hb.tail he

theorem out_curBlocks {b : B} (hb : b ∈ (buildRpoBlockOrder A).out) : b ∈ A.curBlocks := by
  rw [buildRpoBlockOrder_spec.1] at hb
  induction hb with
  | refl => exact A.entry_mem
  | tail _ he ih => exact A.succs_mem _ ih _ he

variable (A) in
/-- `block_info(succ)` for the successors of `block_rpo[i]`. -/
def succIndices (i : ℕ) : List ℕ :=
  match (buildRpoBlockOrder A).out[i]? with
  | some b => (A.blockSuccs b).map (buildRpoBlockOrder A).blockInfo
  | none => []

theorem mem_succIndices {i j : ℕ} : j ∈ succIndices A i ↔
    ∃ b c, (buildRpoBlockOrder A).out[i]? = some b ∧ (buildRpoBlockOrder A).out[j]? = some c ∧
      A.Edge b c := by
  unfold succIndices
  constructor
  · intro hj
    split at hj
    · rename_i b hb
      obtain ⟨c, hc, rfl⟩ := List.mem_map.mp hj
      exact ⟨b, c, hb, getElem?_blockInfo (out_succ (List.mem_of_getElem? hb) hc), hc⟩
    · exact absurd hj List.not_mem_nil
  · rintro ⟨b, c, hb, hc, he⟩
    rw [hb]
    exact List.mem_map.mpr ⟨c, he, buildRpoBlockOrder_spec.2.2.2 j c hc⟩

variable (A) in
/-- The reachable blocks as numbers in reverse post-order. -/
def blockGraph : RpoGraph where
  numBlocks := (buildRpoBlockOrder A).out.length
  succs := succIndices A
  numBlocks_pos := List.length_pos_of_mem (List.mem_of_getElem? buildRpoBlockOrder_head)
  lt_of_succs i j hj := by
    obtain ⟨b, c, hb, hc, -⟩ := mem_succIndices.mp hj
    exact ⟨(List.getElem?_eq_some_iff.mp hb).1, (List.getElem?_eq_some_iff.mp hc).1⟩
  root_notMem i hj := by
    obtain ⟨b, c, hb, hc, he⟩ := mem_succIndices.mp hj
    rw [buildRpoBlockOrder_head] at hc
    cases hc
    exact A.entry_no_pred b (out_curBlocks (List.mem_of_getElem? hb)) he
  pred j hj hj0 := by
    obtain ⟨-, hrpo, hpar, hinfo⟩ := buildRpoBlockOrder_spec (A := A)
    obtain ⟨b, hb⟩ : ∃ b, (buildRpoBlockOrder A).out[j]? = some b := ⟨_, List.getElem?_eq_getElem hj⟩
    rcases hpar b (List.mem_of_getElem? hb) with rfl | ⟨p, hp, l₁, l₂, heq, hpl⟩
    · exact absurd ((hinfo j _ hb).symm.trans (hinfo 0 _ buildRpoBlockOrder_head)) hj0
    · obtain ⟨i, hi⟩ := List.mem_iff_getElem?.mp hpl
      have hil := (List.getElem?_eq_some_iff.mp hi).1
      have hip : (buildRpoBlockOrder A).out[i]? = some p := by
        rw [heq, List.getElem?_append_left hil]
        exact hi
      have hjl : (buildRpoBlockOrder A).out[l₁.length]? = some b := by simp [heq]
      have hjeq : j = l₁.length := by rw [← hinfo j b hb, hinfo _ b hjl]
      exact ⟨i, hjeq ▸ hil, mem_succIndices.mpr ⟨p, b, hip, hb, hp⟩⟩
  retreat i j k he hjk hki := by
    obtain ⟨-, hrpo, -, hinfo⟩ := buildRpoBlockOrder_spec (A := A)
    obtain ⟨b, c, hb, hc, he⟩ := mem_succIndices.mp he
    have hk : k < (buildRpoBlockOrder A).out.length := hki.trans_lt (List.getElem?_eq_some_iff.mp hb).1
    have hr := hrpo.retreat hjk hki hb hc (List.getElem?_eq_getElem hk) he
    have hdrop : ∀ v ∈ (buildRpoBlockOrder A).out.drop j, j ≤ (buildRpoBlockOrder A).blockInfo v := by
      intro v hv
      obtain ⟨m, hm⟩ := List.mem_iff_getElem?.mp hv
      rw [List.getElem?_drop] at hm
      rw [hinfo _ _ hm]
      exact Nat.le_add_right j m
    have hmap := hr.map (F := fun x y => y ∈ succIndices A x) (T := {x | j ≤ x})
      (buildRpoBlockOrder A).blockInfo fun u v huv hu hv => ?_
    · rwa [hinfo j c hc, hinfo k _ (List.getElem?_eq_getElem hk)] at hmap
    · have hu' := getElem?_blockInfo (List.mem_of_mem_drop hu)
      have hv' := getElem?_blockInfo (List.mem_of_mem_drop hv)
      exact ⟨mem_succIndices.mpr ⟨u, v, hu', hv', huv⟩, hdrop u hu, hdrop v hv⟩

variable (A) in
/-- The block with a number. -/
def blockAt (i : ℕ) : B := ((buildRpoBlockOrder A).out[i]?).getD A.curEntryBlock

theorem blockAt_mem {i : ℕ} (hi : i < (blockGraph A).numBlocks) :
    (buildRpoBlockOrder A).out[i]? = some (blockAt A i) := by
  simp [blockAt, List.getElem?_eq_getElem hi]

theorem blockInfo_blockAt {i : ℕ} (hi : i < (blockGraph A).numBlocks) :
    (buildRpoBlockOrder A).blockInfo (blockAt A i) = i :=
  buildRpoBlockOrder_spec.2.2.2 i _ (blockAt_mem hi)

theorem blockAt_blockInfo {b : B} (hb : b ∈ (buildRpoBlockOrder A).out) :
    blockAt A ((buildRpoBlockOrder A).blockInfo b) = b := by
  simp [blockAt, getElem?_blockInfo hb]

theorem blockInfo_lt {b : B} (hb : b ∈ (buildRpoBlockOrder A).out) :
    (buildRpoBlockOrder A).blockInfo b < (blockGraph A).numBlocks :=
  (List.getElem?_eq_some_iff.mp (getElem?_blockInfo hb)).1

theorem blockInfo_entry : (buildRpoBlockOrder A).blockInfo A.curEntryBlock = 0 :=
  buildRpoBlockOrder_spec.2.2.2 0 _ buildRpoBlockOrder_head

theorem blockAt_zero : blockAt A 0 = A.curEntryBlock := by
  simp [blockAt, buildRpoBlockOrder_head]

/-- Edges between numbers are edges between the blocks. -/
theorem edge_blockAt {i j : ℕ} (h : (blockGraph A).Edge i j) : A.Edge (blockAt A i) (blockAt A j) := by
  obtain ⟨b, c, hb, hc, he⟩ := mem_succIndices.mp h
  rwa [blockAt, blockAt, hb, hc]

theorem edge_blockInfo {b c : B} (hb : b ∈ (buildRpoBlockOrder A).out) (h : A.Edge b c) :
    (blockGraph A).Edge ((buildRpoBlockOrder A).blockInfo b) ((buildRpoBlockOrder A).blockInfo c) :=
  mem_succIndices.mpr ⟨b, c, getElem?_blockInfo hb, getElem?_blockInfo (out_succ hb h), h⟩

/-- A dominator among the blocks is one among the numbers. -/
theorem dominates_blockInfo {a b : B} (ha : a ∈ (buildRpoBlockOrder A).out)
    (hb : b ∈ (buildRpoBlockOrder A).out) (h : Dominates A.Edge A.curEntryBlock a b) :
    Dominates (blockGraph A).Edge 0 ((buildRpoBlockOrder A).blockInfo a)
      ((buildRpoBlockOrder A).blockInfo b) := by
  rw [dominates_iff] at h ⊢
  rcases h with rfl | h
  · exact .inl blockInfo_entry.symm
  · refine .inr fun hr => h ?_
    have hmap := hr.map (F := A.Edge) (T := {x | x ≠ a}) (blockAt A) fun i j he hi hj => ?_
    · rwa [blockAt_zero, blockAt_blockInfo hb] at hmap
    · have hne : ∀ k, k < (blockGraph A).numBlocks → k ≠ (buildRpoBlockOrder A).blockInfo a →
        blockAt A k ≠ a := by
        rintro k hk hka rfl
        exact hka (blockInfo_blockAt hk).symm
      exact ⟨edge_blockAt he, hne i (RpoGraph.Edge.lt_left he) hi, hne j (RpoGraph.Edge.lt_right he) hj⟩

end

end Tpde.Analyzer
