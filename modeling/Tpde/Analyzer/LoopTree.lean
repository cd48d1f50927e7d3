import Tpde.Analyzer.IdentifyLoops

/-!
# The loop tree

The first half of `Analyzer::build_loop_tree_and_block_layout`: the loops are
numbered, each behind its parent, every block is given its loop, and the blocks
of each loop are counted. A loop stands for one block, its head (`hd` in
`TreeInv`); loop 0 stands for the entry and has all blocks in it.
-/

namespace Tpde.Analyzer

open FlowGraph PointerForest Relation

/-- `loops`, one map for each field of `Loop`; `none` is `INVALID_BLOCK_IDX`. -/
structure LoopTable where
  size : ℕ
  level : ℕ → ℕ
  parent : ℕ → ℕ
  numBlocks : ℕ → ℕ
  beginIdx : ℕ → Option ℕ
  endIdx : ℕ → ℕ

namespace LoopTable

/-- No loops. -/
def empty : LoopTable := ⟨0, fun _ => 0, fun _ => 0, fun _ => 0, fun _ => none, fun _ => 0⟩

/-- `loops.push_back`, for a loop that is not laid out. -/
def push (l : LoopTable) (level parent numBlocks : ℕ) : LoopTable :=
  { size := l.size + 1
    level := Function.update l.level l.size level
    parent := Function.update l.parent l.size parent
    numBlocks := Function.update l.numBlocks l.size numBlocks
    beginIdx := Function.update l.beginIdx l.size none
    endIdx := l.endIdx }

/-- `num_blocks += n`. -/
def addBlocks (l : LoopTable) (i n : ℕ) : LoopTable :=
  { l with numBlocks := Function.update l.numBlocks i (l.numBlocks i + n) }

end LoopTable

/-- `loops` and `loop_blocks`, whose `loop_idx` is `none` for `~0u`. -/
structure TreeState where
  loops : LoopTable
  loopIdx : ℕ → Option ℕ

namespace TreeState

/-- A loop for block `b`, with the given parent. -/
def pushLoop (s : TreeState) (b parent : ℕ) : TreeState where
  loops := s.loops.push (s.loops.level parent + 1) parent 0
  loopIdx := Function.update s.loopIdx b (some s.loops.size)

/-- Put block `b` into a loop. -/
def setLoop (s : TreeState) (b loop : ℕ) : TreeState :=
  { s with loopIdx := Function.update s.loopIdx b (some loop) }

/-- `++loops[loop].num_blocks`. -/
def count (s : TreeState) (loop : ℕ) : TreeState := { s with loops := s.loops.addBlocks loop 1 }

@[simp] theorem pushLoop_loopIdx (s : TreeState) (b parent : ℕ) :
    (s.pushLoop b parent).loopIdx = Function.update s.loopIdx b (some s.loops.size) := rfl
@[simp] theorem pushLoop_size (s : TreeState) (b parent : ℕ) :
    (s.pushLoop b parent).loops.size = s.loops.size + 1 := rfl
@[simp] theorem setLoop_loopIdx (s : TreeState) (b loop : ℕ) :
    (s.setLoop b loop).loopIdx = Function.update s.loopIdx b (some loop) := rfl
@[simp] theorem setLoop_loops (s : TreeState) (b loop : ℕ) : (s.setLoop b loop).loops = s.loops := rfl
@[simp] theorem count_loopIdx (s : TreeState) (loop : ℕ) : (s.count loop).loopIdx = s.loopIdx := rfl
@[simp] theorem count_numBlocks (s : TreeState) (loop : ℕ) : (s.count loop).loops.numBlocks =
    Function.update s.loops.numBlocks loop (s.loops.numBlocks loop + 1) := rfl

end TreeState

/-- What `identify_loops` says of the blocks below `numBlocks`, the entry being a head as well. -/
structure HeaderForest where
  numBlocks : ℕ
  loopParent : ℕ → ℕ
  loopHeads : ℕ → Bool
  numBlocks_pos : 0 < numBlocks
  parent_lt : ∀ x < numBlocks, loopParent x < numBlocks
  parent_head : ∀ x < numBlocks, loopHeads (loopParent x) = true
  parent_zero : loopParent 0 = 0
  rank : ∃ r : ℕ → ℕ, (∀ x < numBlocks, loopParent x ≠ 0 → r (loopParent x) < r x) ∧
    ∀ x < numBlocks, r x ≤ numBlocks

section
variable (F : HeaderForest)

/-- `build_or_get_parent_loop`; the recursion goes up the parents. -/
def buildOrGetParentLoop : ℕ → TreeState → ℕ → TreeState × ℕ
  | 0, s, _ => (s, 0)
  | n + 1, s, i =>
    let parent := F.loopParent i
    match s.loopIdx parent with
    | some loopIdx => (s, loopIdx)
    | none =>
      let r := buildOrGetParentLoop n s parent
      (r.1.pushLoop parent r.2, r.1.loops.size)

/-- One round of the loop over the blocks. -/
def buildStep (s : TreeState) (i : ℕ) : TreeState :=
  let r := buildOrGetParentLoop F (F.numBlocks + 1) s i
  if F.loopHeads i then
    match r.1.loopIdx i with
    | some loopIdx => r.1.count loopIdx
    | none => (r.1.pushLoop i r.2).count r.1.loops.size
  else (r.1.setLoop i r.2).count r.2

/-- The top-level loop, with the entry in it. -/
def TreeState.init : TreeState where
  loops := LoopTable.empty.push 0 0 1
  loopIdx := Function.update (fun _ => none) 0 (some 0)

/-- The loop over the blocks behind the entry. -/
def buildLoopTree : TreeState := (List.range' 1 (F.numBlocks - 1)).foldl (buildStep F) .init

/-- Adding up the blocks, from loop `i` down to loop 1. -/
def accumulate : ℕ → LoopTable → LoopTable
  | 0, l => l
  | i + 1, l => accumulate i (l.addBlocks (l.parent (i + 1)) (l.numBlocks (i + 1)))

/-- `loops`, before they are laid out. -/
def loopTable : LoopTable :=
  let loops := (buildLoopTree F).loops
  accumulate (loops.size - 1) loops

end

/-! ### Building the tree -/

section
variable {F : HeaderForest}

/-- What holds when the blocks below `t` have their loops: `hd L` is the head of loop `L`. -/
structure TreeInv (F : HeaderForest) (t : ℕ) (s : TreeState) (hd : ℕ → ℕ) : Prop where
  size_pos : 0 < s.loops.size
  hd_zero : hd 0 = 0
  hd_idx : ∀ L < s.loops.size, s.loopIdx (hd L) = some L
  hd_lt : ∀ L < s.loops.size, hd L < F.numBlocks ∧ F.loopHeads (hd L) = true
  idx_lt : ∀ x L, s.loopIdx x = some L → L < s.loops.size
  idx_cases : ∀ x L, s.loopIdx x = some L →
    x = hd L ∨ (x < t ∧ F.loopHeads x = false ∧ s.loopIdx (F.loopParent x) = some L)
  done : ∀ x < t, ∃ L, s.loopIdx x = some L
  parent_zero : s.loops.parent 0 = 0
  level_zero : s.loops.level 0 = 0
  parent : ∀ L < s.loops.size, L ≠ 0 → s.loopIdx (F.loopParent (hd L)) = some (s.loops.parent L) ∧
    s.loops.parent L < L ∧ s.loops.level L = s.loops.level (s.loops.parent L) + 1
  count : ∀ L < s.loops.size,
    s.loops.numBlocks L = ((Finset.range t).filter fun x => s.loopIdx x = some L).card
  fresh : ∀ L, s.loops.beginIdx L = none

namespace TreeInv

variable {t : ℕ} {s : TreeState} {hd : ℕ → ℕ}

theorem init : TreeInv F 1 .init (fun _ => 0) where
  size_pos := by simp [TreeState.init, LoopTable.push]
  hd_zero := rfl
  hd_idx L hL := by
    obtain rfl : L = 0 := by simpa [TreeState.init, LoopTable.push, LoopTable.empty] using hL
    rfl
  hd_lt L hL := ⟨F.numBlocks_pos, F.parent_zero ▸ F.parent_head 0 F.numBlocks_pos⟩
  idx_lt x L h := by
    by_cases hx : x = 0
    · obtain rfl : 0 = L := by simpa [TreeState.init, hx] using h
      simp [TreeState.init, LoopTable.push]
    · simp [TreeState.init, hx] at h
  idx_cases x L h := by
    by_cases hx : x = 0
    · exact .inl hx
    · simp [TreeState.init, hx] at h
  done x hx := by
    obtain rfl : x = 0 := by omega
    exact ⟨0, rfl⟩
  parent_zero := rfl
  level_zero := rfl
  parent L hL h0 := by
    obtain rfl : L = 0 := by simpa [TreeState.init, LoopTable.push, LoopTable.empty] using hL
    exact absurd rfl h0
  count L hL := by
    obtain rfl : L = 0 := by simpa [TreeState.init, LoopTable.push, LoopTable.empty] using hL
    decide
  fresh L := by
    by_cases hL : L = 0 <;> simp [TreeState.init, LoopTable.push, LoopTable.empty, hL]

/-- A loop is pushed for a head that has none, below the loop of its parent. -/
theorem push (h : TreeInv F t s hd) {b p : ℕ} (hb : b < F.numBlocks) (hbt : t ≤ b)
    (hhead : F.loopHeads b = true) (hnone : s.loopIdx b = none) (hp : s.loopIdx (F.loopParent b) = some p) :
    TreeInv F t (s.pushLoop b p) (Function.update hd s.loops.size b) := by
  have hidx : ∀ x, s.loopIdx x ≠ none → Function.update s.loopIdx b (some s.loops.size) x = s.loopIdx x := by
    intro x hx
    refine Function.update_of_ne ?_ ..
    rintro rfl
    exact hx hnone
  have hhd : ∀ L, L < s.loops.size → Function.update hd s.loops.size b L = hd L := fun L hL =>
    Function.update_of_ne (by omega) ..
  have hplt := h.idx_lt _ _ hp
  have hsize : (s.pushLoop b p).loops.size = s.loops.size + 1 := rfl
  have hcases : ∀ L, L < (s.pushLoop b p).loops.size → L = s.loops.size ∨ L < s.loops.size := by
    intro L hL
    rw [hsize] at hL
    omega
  constructor
  · exact Nat.succ_pos _
  · rw [hhd 0 h.size_pos]
    exact h.hd_zero
  · intro L hL
    rcases hcases L hL with rfl | hL
    · simp [TreeState.pushLoop]
    · rw [hhd L hL]
      exact (hidx _ (by rw [h.hd_idx L hL]; simp)).trans (h.hd_idx L hL)
  · intro L hL
    rcases hcases L hL with rfl | hL
    · simpa using ⟨hb, hhead⟩
    · rw [hhd L hL]
      exact h.hd_lt L hL
  · intro x L hx
    by_cases hxb : x = b
    · obtain rfl : s.loops.size = L := by simpa [TreeState.pushLoop, hxb] using hx
      exact Nat.lt_succ_self _
    · rw [TreeState.pushLoop_loopIdx, Function.update_of_ne hxb] at hx
      exact (h.idx_lt x L hx).trans (Nat.lt_succ_self _)
  · intro x L hx
    by_cases hxb : x = b
    · obtain rfl : s.loops.size = L := by simpa [TreeState.pushLoop, hxb] using hx
      exact .inl (by simp [hxb])
    · rw [TreeState.pushLoop_loopIdx, Function.update_of_ne hxb] at hx
      rw [hhd L (h.idx_lt x L hx)]
      refine (h.idx_cases x L hx).imp_right fun hc => ⟨hc.1, hc.2.1, ?_⟩
      exact (hidx _ (by rw [hc.2.2]; simp)).trans hc.2.2
  · intro x hx
    obtain ⟨L, hL⟩ := h.done x hx
    exact ⟨L, (hidx x (by rw [hL]; simp)).trans hL⟩
  · exact (Function.update_of_ne h.size_pos.ne ..).trans h.parent_zero
  · exact (Function.update_of_ne h.size_pos.ne ..).trans h.level_zero
  · intro L hL h0
    rcases hcases L hL with rfl | hL
    · refine ⟨?_, ?_, ?_⟩
      · rw [Function.update_self]
        refine (hidx _ (by rw [hp]; simp)).trans (hp.trans ?_)
        simp [TreeState.pushLoop, LoopTable.push]
      · simpa [TreeState.pushLoop, LoopTable.push] using hplt
      · simp [TreeState.pushLoop, LoopTable.push, Function.update_of_ne hplt.ne]
    · obtain ⟨h1, h2, h3⟩ := h.parent L hL h0
      rw [hhd L hL]
      have hLne : L ≠ s.loops.size := hL.ne
      have hPne : s.loops.parent L ≠ s.loops.size := (h2.trans hL).ne
      refine ⟨?_, ?_, ?_⟩
      · refine (hidx _ (by rw [h1]; simp)).trans (h1.trans ?_)
        simp [TreeState.pushLoop, LoopTable.push, hLne]
      · simpa [TreeState.pushLoop, LoopTable.push, hLne] using h2
      · simpa [TreeState.pushLoop, LoopTable.push, hLne, hPne] using h3
  · intro L hL
    have hfilter : ∀ x ∈ Finset.range t, (s.pushLoop b p).loopIdx x = s.loopIdx x := by
      intro x hx
      obtain ⟨l, hl⟩ := h.done x (Finset.mem_range.mp hx)
      exact hidx x (by rw [hl]; simp)
    rw [Finset.filter_congr fun x hx => by rw [hfilter x hx]]
    rcases hcases L hL with rfl | hL
    · have : ((Finset.range t).filter fun x => s.loopIdx x = some s.loops.size) = ∅ := by
        refine Finset.filter_eq_empty_iff.mpr fun x _ hx => ?_
        exact lt_irrefl _ (h.idx_lt x _ hx)
      simp [this, TreeState.pushLoop, LoopTable.push]
    · rw [← h.count L hL]
      simp [TreeState.pushLoop, LoopTable.push, hL.ne]
  · intro L
    by_cases hL : L = s.loops.size
    · simp [TreeState.pushLoop, LoopTable.push, hL]
    · simpa [TreeState.pushLoop, LoopTable.push, hL] using h.fresh L

/-- The loop of the parent of a block is found, or built with what is above it. -/
theorem buildOrGet (r : ℕ → ℕ) (hr : ∀ x < F.numBlocks, F.loopParent x ≠ 0 → r (F.loopParent x) < r x) :
    ∀ (n : ℕ) (s : TreeState) (hd : ℕ → ℕ) (i : ℕ), TreeInv F t s hd → i < F.numBlocks → r i < n → 0 < t →
      ∃ hd', TreeInv F t (buildOrGetParentLoop F n s i).1 hd' ∧
        (buildOrGetParentLoop F n s i).1.loopIdx (F.loopParent i) = some (buildOrGetParentLoop F n s i).2 ∧
        ∀ x, r i ≤ r x → (buildOrGetParentLoop F n s i).1.loopIdx x = s.loopIdx x := by
  intro n
  induction n with
  | zero => intro s hd i _ _ hn; omega
  | succ n ih =>
    intro s hd i h hi hn ht
    rw [buildOrGetParentLoop]
    dsimp only
    split
    · rename_i L hL
      exact ⟨hd, h, hL, fun x _ => rfl⟩
    · rename_i hnone
      have hp0 : F.loopParent i ≠ 0 := by
        intro h0
        obtain ⟨L, hL⟩ := h.done 0 ht
        rw [h0, hL] at hnone
        cases hnone
      have hlt := hr i hi hp0
      obtain ⟨hd', h', hidx, hsame⟩ := ih s hd (F.loopParent i) h (F.parent_lt i hi) (by omega) ht
      have hnone' := (hsame _ le_rfl).trans hnone
      have hbt : t ≤ F.loopParent i := by
        by_contra hlt
        obtain ⟨L, hL⟩ := h.done _ (Nat.not_le.mp hlt)
        rw [hL] at hnone
        cases hnone
      refine ⟨_, h'.push (F.parent_lt i hi) hbt (F.parent_head i hi) hnone' hidx, ?_, fun x hx => ?_⟩
      · simp [TreeState.pushLoop]
      · have hne : x ≠ F.loopParent i := by
          rintro rfl
          omega
        rw [← hsame x (by omega)]
        simp [TreeState.pushLoop, hne]

/-- A block `t` that has its loop is counted. -/
theorem counted (h : TreeInv F t s hd) {L : ℕ} (hL : s.loopIdx t = some L) :
    TreeInv F (t + 1) (s.count L) hd := by
  refine { h with idx_cases := ?_, done := ?_, count := ?_ }
  · intro x l hx
    exact (h.idx_cases x l hx).imp_right fun hc => ⟨hc.1.trans (Nat.lt_succ_self t), hc.2⟩
  · intro x hx
    rcases Nat.lt_succ_iff_lt_or_eq.mp hx with hx | rfl
    · exact h.done x hx
    · exact ⟨L, hL⟩
  · intro l hl
    rw [TreeState.count_loopIdx, Finset.range_add_one, Finset.filter_insert, TreeState.count_numBlocks]
    by_cases hlL : l = L
    · subst hlL
      rw [if_pos hL, Finset.card_insert_of_notMem (by simp), Function.update_self, h.count l hl]
    · rw [if_neg (by rw [hL]; simpa using Ne.symm hlL), Function.update_of_ne hlL, h.count l hl]

/-- A block that is no head goes into the loop of its parent. -/
theorem setLoop (h : TreeInv F t s hd) {L : ℕ} (hhead : F.loopHeads t = false)
    (hL : s.loopIdx (F.loopParent t) = some L) : TreeInv F (t + 1) ((s.setLoop t L).count L) hd := by
  have hnone : s.loopIdx t = none := by
    cases hidx : s.loopIdx t with
    | none => rfl
    | some l =>
      exfalso
      rcases h.idx_cases t l hidx with ht | ht
      · have := (h.hd_lt l (h.idx_lt t l hidx)).2
        rw [← ht, hhead] at this
        cases this
      · exact lt_irrefl t ht.1
  have hidx : ∀ x, s.loopIdx x ≠ none → Function.update s.loopIdx t (some L) x = s.loopIdx x := by
    intro x hx
    refine Function.update_of_ne ?_ ..
    rintro rfl
    exact hx hnone
  have hset : ∀ x l, s.loopIdx x = some l → (s.setLoop t L).loopIdx x = some l := fun x l hx =>
    (hidx x (by rw [hx]; simp)).trans hx
  refine { h with hd_idx := ?_, idx_lt := ?_, idx_cases := ?_, done := ?_, parent := ?_, count := ?_ }
  · exact fun l hl => hset _ _ (h.hd_idx l hl)
  · intro x l hx
    by_cases hxt : x = t
    · obtain rfl : L = l := by simpa [hxt] using hx
      exact h.idx_lt _ _ hL
    · exact h.idx_lt x l (by simpa [hxt] using hx)
  · intro x l hx
    by_cases hxt : x = t
    · obtain rfl : L = l := by simpa [hxt] using hx
      exact .inr ⟨hxt ▸ Nat.lt_succ_self t, hxt ▸ hhead, hset _ _ (hxt ▸ hL)⟩
    · refine (h.idx_cases x l (by simpa [hxt] using hx)).imp_right fun hc => ?_
      exact ⟨hc.1.trans (Nat.lt_succ_self t), hc.2.1, hset _ _ hc.2.2⟩
  · intro x hx
    rcases Nat.lt_succ_iff_lt_or_eq.mp hx with hx | rfl
    · obtain ⟨l, hl⟩ := h.done x hx
      exact ⟨l, hset x l hl⟩
    · exact ⟨L, by simp⟩
  · exact fun l hl h0 => ⟨hset _ _ (h.parent l hl h0).1, (h.parent l hl h0).2⟩
  · intro l hl
    have hcongr : ((Finset.range t).filter fun x => (s.setLoop t L).loopIdx x = some l) =
        (Finset.range t).filter fun x => s.loopIdx x = some l := by
      refine Finset.filter_congr fun x hx => ?_
      rw [TreeState.setLoop_loopIdx, Function.update_of_ne (Finset.mem_range.mp hx).ne]
    rw [TreeState.count_loopIdx, Finset.range_add_one, Finset.filter_insert, TreeState.count_numBlocks,
      TreeState.setLoop_loops, hcongr, TreeState.setLoop_loopIdx, Function.update_self]
    by_cases hlL : l = L
    · subst hlL
      rw [if_pos rfl, Finset.card_insert_of_notMem (by simp), Function.update_self, h.count l hl]
    · rw [if_neg (by simpa using Ne.symm hlL), Function.update_of_ne hlL, h.count l hl]

/-- One round of the loop over the blocks. -/
theorem step (h : TreeInv F t s hd) (ht : t < F.numBlocks) (ht0 : 0 < t) :
    ∃ hd', TreeInv F (t + 1) (buildStep F s t) hd' := by
  obtain ⟨r, hr, hbound⟩ := F.rank
  obtain ⟨hd', h', hidx, -⟩ :=
    buildOrGet r hr (F.numBlocks + 1) s hd t h ht (by have := hbound t ht; omega) ht0
  unfold buildStep
  dsimp only
  generalize buildOrGetParentLoop F (F.numBlocks + 1) s t = res at *
  split_ifs with hhead
  · split
    · rename_i L hL
      exact ⟨hd', h'.counted hL⟩
    · rename_i hnone
      exact ⟨_, (h'.push ht le_rfl hhead hnone hidx).counted (by simp)⟩
  · exact ⟨hd', h'.setLoop (by simpa using hhead) hidx⟩

end TreeInv

/-- Every block gets a loop. -/
theorem buildLoopTree_inv : ∃ hd, TreeInv F F.numBlocks (buildLoopTree F) hd := by
  have key : ∀ n t s hd, TreeInv F t s hd → 0 < t → t + n = F.numBlocks →
      ∃ hd', TreeInv F F.numBlocks ((List.range' t n).foldl (buildStep F) s) hd' := by
    intro n
    induction n with
    | zero =>
      intro t s hd h _ ht
      exact ⟨hd, by simpa [← ht] using h⟩
    | succ n ih =>
      intro t s hd h ht0 ht
      obtain ⟨hd', h'⟩ := h.step (by omega) ht0
      rw [List.range'_succ, List.foldl_cons]
      exact ih (t + 1) _ hd' h' (Nat.succ_pos t) (by omega)
  exact key _ 1 _ _ TreeInv.init Nat.one_pos (by have := F.numBlocks_pos; omega)

end

/-! ### The tree -/

/-- Blocks in a tree of loops that are numbered from the top. -/
structure LoopTree where
  numBlocks : ℕ
  size : ℕ
  loopOf : ℕ → ℕ
  parent : ℕ → ℕ
  numBlocks_pos : 0 < numBlocks
  loopOf_lt : ∀ x < numBlocks, loopOf x < size
  parent_lt : ∀ L < size, L ≠ 0 → parent L < L
  exists_block : ∀ L < size, ∃ x < numBlocks, loopOf x = L

namespace LoopTree

variable (T : LoopTree)

/-- Loop `l` is `L`, or a loop inside it. -/
def Under : ℕ → ℕ → Prop := ReflTransGen fun a b => a ≠ 0 ∧ T.parent a = b

open Classical in
/-- The blocks of a loop, those of the loops inside it included. -/
noncomputable def blocks (L : ℕ) : Finset ℕ := (Finset.range T.numBlocks).filter fun x =>
    T.Under (T.loopOf x) L

variable {T}

theorem mem_blocks {L x : ℕ} : x ∈ T.blocks L ↔ x < T.numBlocks ∧ T.Under (T.loopOf x) L := by
  simp [blocks]

theorem size_pos : 0 < T.size := (Nat.zero_le _).trans_lt (T.loopOf_lt 0 T.numBlocks_pos)

theorem Under.refl (L : ℕ) : T.Under L L := ReflTransGen.refl

theorem Under.trans {a b c : ℕ} (h : T.Under a b) (h' : T.Under b c) : T.Under a c := ReflTransGen.trans h h'

theorem Under.le {l L : ℕ} (h : T.Under l L) (hl : l < T.size) : L ≤ l := by
  induction h with
  | refl => exact le_rfl
  | tail _ he ih =>
    obtain ⟨h0, rfl⟩ := he
    exact (T.parent_lt _ (ih.trans_lt hl) h0).le.trans ih

theorem under_zero {l : ℕ} (hl : l < T.size) : T.Under l 0 := by
  induction l using Nat.strong_induction_on with
  | _ l ih =>
    by_cases h0 : l = 0
    · subst h0
      exact .refl 0
    · have hlt := T.parent_lt l hl h0
      exact ReflTransGen.head ⟨h0, rfl⟩ (ih _ hlt (hlt.trans hl))

theorem Under.total {l a b : ℕ} (ha : T.Under l a) (hb : T.Under l b) : T.Under a b ∨ T.Under b a :=
  ReflTransGen.total_of_right_unique (fun _ _ _ h h' => h.2.symm.trans h'.2) ha hb

/-- A loop inside another is inside a child of it. -/
theorem Under.child {l L : ℕ} (h : T.Under l L) (hne : l ≠ L) : ∃ c, T.Under l c ∧ c ≠ 0 ∧
    T.parent c = L := by
  rcases ReflTransGen.cases_tail h with rfl | ⟨c, hc, h0, hp⟩
  · exact absurd rfl hne
  · exact ⟨c, hc, h0, hp⟩

theorem Under.parent {L : ℕ} (h0 : L ≠ 0) : T.Under L (T.parent L) := ReflTransGen.single ⟨h0, rfl⟩

/-- A loop is inside one child of another only. -/
theorem child_unique {l c c' : ℕ} (hl : l < T.size) (hc : T.Under l c) (hc' : T.Under l c') (h0 : c ≠ 0)
    (h0' : c' ≠ 0) (hp : T.parent c = T.parent c') : c = c' := by
  have key : ∀ a b, T.Under l a → T.Under l b → a ≠ 0 → b ≠ 0 → T.parent a = T.parent b → T.Under a b →
    a = b := by
    intro a b ha hb ha0 hb0 hpab hab
    rcases ReflTransGen.cases_head hab with rfl | ⟨d, ⟨-, rfl⟩, hd⟩
    · rfl
    · have hbs := (hb.le hl).trans_lt hl
      have hlt := T.parent_lt b hbs hb0
      have hle := Under.le hd (hpab ▸ hlt.trans hbs)
      omega
  rcases hc.total hc' with h | h
  · exact key c c' hc hc' h0 h0' hp h
  · exact (key c' c hc' hc h0' h0 hp.symm h).symm

theorem blocks_subset {l L : ℕ} (h : T.Under l L) : T.blocks l ⊆ T.blocks L := by
  intro x hx
  rw [mem_blocks] at hx ⊢
  exact ⟨hx.1, hx.2.trans h⟩

theorem blocks_nonempty {L : ℕ} (hL : L < T.size) : (T.blocks L).Nonempty := by
  obtain ⟨x, hx, rfl⟩ := T.exists_block L hL
  exact ⟨x, mem_blocks.mpr ⟨hx, .refl _⟩⟩

theorem blocks_zero : T.blocks 0 = Finset.range T.numBlocks := by
  ext x
  rw [mem_blocks, Finset.mem_range]
  exact ⟨And.left, fun hx => ⟨hx, under_zero (T.loopOf_lt x hx)⟩⟩

/-! ### Adding up the blocks -/

/-- The way from `l` up to `L` uses loops from `k` on. -/
def UnderFrom (T : LoopTree) (k : ℕ) : ℕ → ℕ → Prop := ReflTransGen fun a b => k ≤ a ∧ a ≠ 0 ∧ T.parent a = b

open Classical in
/-- The blocks that have been added to loop `L` when the loops from `k` on have been added to their
parents. -/
noncomputable def part (T : LoopTree) (k L : ℕ) : Finset ℕ :=
  (Finset.range T.numBlocks).filter fun x => T.UnderFrom k (T.loopOf x) L

theorem mem_part {k L x : ℕ} : x ∈ T.part k L ↔ x < T.numBlocks ∧ T.UnderFrom k (T.loopOf x) L := by
  simp [part]

theorem UnderFrom.under {k l L : ℕ} (h : T.UnderFrom k l L) : T.Under l L :=
  ReflTransGen.mono (fun _ _ h => h.2) _ _ h

/-- A way that uses loops from `k` on ends at the parent of `k` when it uses `k`. -/
theorem underFrom_iff {k l L : ℕ} (hk : k < T.size) (hk0 : k ≠ 0) :
    T.UnderFrom k l L ↔ T.UnderFrom (k + 1) l L ∨ (L = T.parent k ∧ T.UnderFrom (k + 1) l k) := by
  have hmono : ∀ L, T.UnderFrom (k + 1) l L → T.UnderFrom k l L := fun L h =>
    ReflTransGen.mono (fun _ _ h => ⟨Nat.le_of_succ_le h.1, h.2⟩) _ _ h
  constructor
  · intro h
    induction h with
    | refl => exact .inl .refl
    | @tail a b _ he ih =>
      obtain ⟨hka, ha0, rfl⟩ := he
      rcases ih with ih | ⟨rfl, -⟩
      · rcases Nat.eq_or_lt_of_le hka with rfl | hlt
        · exact .inr ⟨rfl, ih⟩
        · exact .inl (ReflTransGen.tail ih ⟨hlt, ha0, rfl⟩)
      · exact absurd (T.parent_lt k hk hk0) (Nat.not_lt.mpr hka)
  · rintro (h | ⟨rfl, h⟩)
    · exact hmono L h
    · exact ReflTransGen.tail (hmono k h) ⟨le_rfl, hk0, rfl⟩

/-- No way uses `k` and goes on to its parent without counting as one through `k`. -/
theorem underFrom_disjoint {k l : ℕ} (hk : k < T.size) (hk0 : k ≠ 0) (h : T.UnderFrom (k + 1) l k)
    (h' : T.UnderFrom (k + 1) l (T.parent k)) : False := by
  have hlt := T.parent_lt k hk hk0
  have hstop : ∀ b, T.UnderFrom (k + 1) k b → b = k := by
    intro b hb
    rcases ReflTransGen.cases_head hb with rfl | ⟨c, ⟨hkk, -⟩, -⟩
    · rfl
    · omega
  rcases ReflTransGen.total_of_right_unique (fun _ _ _ h h' => h.2.2.symm.trans h'.2.2) h h' with hc | hc
  · exact absurd (hstop _ hc) hlt.ne
  · exact absurd ((UnderFrom.under hc).le (hlt.trans hk)) (Nat.not_le.mpr hlt)

theorem card_part {k L : ℕ} (hk : k < T.size) (hk0 : k ≠ 0) :
    (T.part k L).card = (T.part (k + 1) L).card + if L = T.parent k then (T.part (k + 1) k).card else 0 := by
  split_ifs with hL
  · have hunion : T.part k L = T.part (k + 1) L ∪ T.part (k + 1) k := by
      ext x
      rw [Finset.mem_union, mem_part, mem_part, mem_part, underFrom_iff hk hk0]
      tauto
    rw [hunion, Finset.card_union_of_disjoint]
    refine Finset.disjoint_left.mpr fun x hx hx' => ?_
    exact underFrom_disjoint hk hk0 (mem_part.mp hx').2 (hL ▸ (mem_part.mp hx).2)
  · have heq : T.part k L = T.part (k + 1) L := by
      ext x
      rw [mem_part, mem_part, underFrom_iff hk hk0]
      tauto
    simp [heq]

theorem part_one (L : ℕ) : T.part 1 L = T.blocks L := by
  ext x
  rw [mem_part, mem_blocks]
  refine and_congr_right fun _ => ⟨UnderFrom.under, fun h => ?_⟩
  exact ReflTransGen.mono (fun a b h => ⟨Nat.one_le_iff_ne_zero.mpr h.1, h⟩) _ _ h

theorem mem_part_size {L x : ℕ} : x ∈ T.part T.size L ↔ x < T.numBlocks ∧ T.loopOf x = L := by
  rw [mem_part]
  refine and_congr_right fun hx => ⟨fun h => ?_, fun h => h ▸ .refl⟩
  rcases ReflTransGen.cases_head h with h | ⟨c, ⟨hle, -⟩, -⟩
  · exact h
  · exact absurd (T.loopOf_lt x hx) (Nat.not_lt.mpr hle)

end LoopTree

/-- Adding up leaves everything but the counts. -/
theorem accumulate_frame (i : ℕ) (l : LoopTable) : (accumulate i l).size = l.size ∧
    (accumulate i l).parent = l.parent ∧ (accumulate i l).level = l.level ∧
    (accumulate i l).beginIdx = l.beginIdx := by
  induction i generalizing l with
  | zero => exact ⟨rfl, rfl, rfl, rfl⟩
  | succ i ih => exact ih _

/-- Adding up from the last loop to the first counts the blocks of every loop. -/
theorem accumulate_numBlocks {T : LoopTree} (i : ℕ) (l : LoopTable) (hp : l.parent = T.parent)
    (hi : i < T.size)
    (h : ∀ L < T.size, l.numBlocks L = (T.part (i + 1) L).card) :
    ∀ L < T.size, (accumulate i l).numBlocks L = (T.blocks L).card := by
  induction i generalizing l with
  | zero =>
    intro L hL
    rw [← LoopTree.part_one]
    exact h L hL
  | succ i ih =>
    refine ih (l.addBlocks (l.parent (i + 1)) (l.numBlocks (i + 1))) hp (by omega) fun L hL => ?_
    rw [LoopTree.card_part hi (Nat.succ_ne_zero i)]
    by_cases hLp : L = T.parent (i + 1)
    · simp [LoopTable.addBlocks, hp, hLp, h (i + 1) hi, h _ (hLp ▸ hL)]
    · simp [LoopTable.addBlocks, hp, hLp, h L hL]

/-! ### The loops of the blocks -/

section
variable (F : HeaderForest)

/-- `loop_blocks[x].loop_idx` when every block has its loop. -/
def blockLoop (x : ℕ) : ℕ := ((buildLoopTree F).loopIdx x).getD 0

variable {F}

theorem loopIdx_eq {x : ℕ} (hx : x < F.numBlocks) : (buildLoopTree F).loopIdx x = some (blockLoop F x) := by
  obtain ⟨hd, h⟩ := buildLoopTree_inv (F := F)
  obtain ⟨L, hL⟩ := h.done x hx
  simp [blockLoop, hL]

variable (F) in
/-- The tree of the loops. -/
def headerTree : LoopTree where
  numBlocks := F.numBlocks
  size := (buildLoopTree F).loops.size
  loopOf := blockLoop F
  parent := (buildLoopTree F).loops.parent
  numBlocks_pos := F.numBlocks_pos
  loopOf_lt x hx := by
    obtain ⟨hd, h⟩ := buildLoopTree_inv (F := F)
    exact h.idx_lt x _ (loopIdx_eq hx)
  parent_lt L hL h0 := by
    obtain ⟨hd, h⟩ := buildLoopTree_inv (F := F)
    exact (h.parent L hL h0).2.1
  exists_block L hL := by
    obtain ⟨hd, h⟩ := buildLoopTree_inv (F := F)
    have hlt := (h.hd_lt L hL).1
    exact ⟨hd L, hlt, Option.some_injective _ ((loopIdx_eq hlt).symm.trans (h.hd_idx L hL))⟩

/-- The loops before they are laid out: the tree, with the number of blocks of each loop. -/
theorem loopTable_spec : (loopTable F).size = (headerTree F).size ∧
    (loopTable F).parent = (headerTree F).parent ∧
    (∀ L < (headerTree F).size, (loopTable F).numBlocks L = ((headerTree F).blocks L).card) ∧
    (∀ L, (loopTable F).beginIdx L = none) ∧
    (loopTable F).parent 0 = 0 ∧ (loopTable F).level 0 = 0 ∧
    ∀ L < (headerTree F).size, L ≠ 0 →
      (loopTable F).level L = (loopTable F).level ((loopTable F).parent L) + 1 := by
  obtain ⟨hd, h⟩ := buildLoopTree_inv (F := F)
  obtain ⟨h1, h2, h3, h4⟩ := accumulate_frame ((buildLoopTree F).loops.size - 1) (buildLoopTree F).loops
  refine ⟨h1, h2, ?_, fun L => ?_, ?_, ?_, fun L hL h0 => ?_⟩
  · have hpos := h.size_pos
    refine accumulate_numBlocks (T := headerTree F) _ _ rfl ?_ fun L hL => ?_
    · change (buildLoopTree F).loops.size - 1 < (buildLoopTree F).loops.size
      omega
    · have hsucc : (buildLoopTree F).loops.size - 1 + 1 = (headerTree F).size := Nat.succ_pred_eq_of_pos hpos
      rw [hsucc, h.count L hL]
      congr 1
      ext x
      rw [Finset.mem_filter, Finset.mem_range, LoopTree.mem_part_size]
      refine and_congr_right fun hx => ?_
      rw [loopIdx_eq hx, Option.some_inj]
      rfl
  · change (accumulate _ _).beginIdx L = none
    rw [h4]
    exact h.fresh L
  · change (accumulate _ _).parent 0 = 0
    rw [h2]
    exact h.parent_zero
  · change (accumulate _ _).level 0 = 0
    rw [h3]
    exact h.level_zero
  · change (accumulate _ _).level L = (accumulate _ _).level ((accumulate _ _).parent L) + 1
    rw [h3, h2]
    exact (h.parent L hL h0).2.2

theorem head_zero : F.loopHeads 0 = true := F.parent_zero ▸ F.parent_head 0 F.numBlocks_pos

/-- Every loop has one head. -/
theorem exists_head {L : ℕ} (hL : L < (headerTree F).size) :
    ∃ h < F.numBlocks, F.loopHeads h = true ∧ blockLoop F h = L := by
  obtain ⟨hd, h⟩ := buildLoopTree_inv (F := F)
  obtain ⟨hlt, hhead⟩ := h.hd_lt L hL
  exact ⟨hd L, hlt, hhead, Option.some_injective _ ((loopIdx_eq hlt).symm.trans (h.hd_idx L hL))⟩

theorem head_unique {x y : ℕ} (hx : x < F.numBlocks) (hy : y < F.numBlocks) (hhx : F.loopHeads x = true)
    (hhy : F.loopHeads y = true) (hxy : blockLoop F x = blockLoop F y) : x = y := by
  obtain ⟨hd, h⟩ := buildLoopTree_inv (F := F)
  have key : ∀ z, z < F.numBlocks → F.loopHeads z = true → z = hd (blockLoop F z) := by
    intro z hz hhz
    rcases h.idx_cases z _ (loopIdx_eq hz) with hzd | hzd
    · exact hzd
    · rw [hhz] at hzd
      cases hzd.2.1
  rw [key x hx hhx, key y hy hhy, hxy]

theorem blockLoop_zero : blockLoop F 0 = 0 := by
  obtain ⟨hd, h⟩ := buildLoopTree_inv (F := F)
  have := h.hd_idx 0 h.size_pos
  rw [h.hd_zero, loopIdx_eq F.numBlocks_pos] at this
  exact Option.some_injective _ this

/-- A block that is no head is in the loop of its parent. -/
theorem blockLoop_parent {x : ℕ} (hx : x < F.numBlocks) (hhead : F.loopHeads x = false) :
    blockLoop F (F.loopParent x) = blockLoop F x := by
  obtain ⟨hd, h⟩ := buildLoopTree_inv (F := F)
  have hidx := loopIdx_eq hx
  rcases h.idx_cases x _ hidx with hxd | hxd
  · have := (h.hd_lt _ (h.idx_lt x _ hidx)).2
    rw [← hxd, hhead] at this
    cases this
  · have := hxd.2.2
    rw [loopIdx_eq (F.parent_lt x hx)] at this
    exact Option.some_injective _ this

/-- The loop of a head is a child of the loop of its parent. -/
theorem parent_blockLoop {x : ℕ} (hx : x < F.numBlocks) (hhead : F.loopHeads x = true) (hx0 : x ≠ 0) :
    blockLoop F x ≠ 0 ∧ (headerTree F).parent (blockLoop F x) = blockLoop F (F.loopParent x) := by
  obtain ⟨hd, h⟩ := buildLoopTree_inv (F := F)
  have hidx := loopIdx_eq hx
  have hlt := h.idx_lt x _ hidx
  have hne : blockLoop F x ≠ 0 := fun h0 =>
    hx0 (head_unique hx F.numBlocks_pos hhead head_zero (h0.trans blockLoop_zero.symm))
  have hxd : hd (blockLoop F x) = x := by
    obtain ⟨hdlt, hdhead⟩ := h.hd_lt _ hlt
    refine head_unique hdlt hx hdhead hhead ?_
    exact Option.some_injective _ ((loopIdx_eq hdlt).symm.trans (h.hd_idx _ hlt))
  refine ⟨hne, ?_⟩
  have := (h.parent _ hlt hne).1
  rw [hxd, loopIdx_eq (F.parent_lt x hx)] at this
  exact (Option.some_injective _ this).symm

/-- The blocks of a loop are those that have its head on their chain. -/
theorem mem_headerTree_blocks {x h : ℕ} (hh : h < F.numBlocks) (hhead : F.loopHeads h = true) :
    x ∈ (headerTree F).blocks (blockLoop F h) ↔ x < F.numBlocks ∧ (h = 0 ∨ Chain 0 F.loopParent x h) := by
  rw [LoopTree.mem_blocks]
  refine and_congr_right fun hx => ?_
  constructor
  · intro hu
    by_cases h0 : h = 0
    · exact .inl h0
    · refine .inr ?_
      -- up the loops, from head to head
      have key : ∀ L, (headerTree F).Under (blockLoop F x) L → ∀ k < F.numBlocks, F.loopHeads k = true →
        k ≠ 0 →
          blockLoop F k = L → Chain 0 F.loopParent x k := by
        intro L hL
        induction hL with
        | refl =>
          intro k hk hkhead hk0 hkx
          cases hxh : F.loopHeads x with
          | true => exact head_unique hk hx hkhead hxh hkx ▸ .refl _
          | false =>
            have hpk := head_unique hk (F.parent_lt x hx) hkhead (F.parent_head x hx)
              (hkx.trans (blockLoop_parent hx hxh).symm)
            exact hpk ▸ Chain.step (hpk ▸ hk0)
        | @tail a b hab he ih =>
          intro k hk hkhead hk0 hkb
          obtain ⟨ha0, hpab⟩ := he
          obtain ⟨m, hm, hmhead, hma⟩ := exists_head
            (LoopTree.Under.le hab ((headerTree F).loopOf_lt x hx) |>.trans_lt
              ((headerTree F).loopOf_lt x hx))
          have hm0 : m ≠ 0 := by
            rintro rfl
            exact ha0 (hma.symm.trans blockLoop_zero)
          have hpm := (parent_blockLoop hm hmhead hm0).2
          have hkp := head_unique hk (F.parent_lt m hm) hkhead (F.parent_head m hm) (by
            rw [hkb, ← hpm, hma]
            exact hpab.symm)
          exact (ih m hm hmhead hm0 hma).trans (hkp ▸ Chain.step (hkp ▸ hk0))
      exact key _ hu h hh hhead h0 rfl
  · rintro (rfl | hc)
    · rw [blockLoop_zero]
      exact LoopTree.under_zero ((headerTree F).loopOf_lt x hx)
    · have key : h < F.numBlocks ∧ (headerTree F).Under (blockLoop F x) (blockLoop F h) := by
        clear hh hhead
        induction hc with
        | refl => exact ⟨hx, .refl _⟩
        | @tail y z _ he ih =>
          obtain ⟨rfl, hz0⟩ := he
          refine ⟨F.parent_lt y ih.1, ?_⟩
          cases hyh : F.loopHeads y with
          | false => exact blockLoop_parent ih.1 hyh ▸ ih.2
          | true =>
            have hy0 : y ≠ 0 := by
              rintro rfl
              exact hz0 F.parent_zero
            obtain ⟨hL0, hp⟩ := parent_blockLoop ih.1 hyh hy0
            exact ih.2.trans (hp ▸ LoopTree.Under.parent hL0)
      exact key.2

end

/-! ### The loops that were found -/

section
variable (g : RpoGraph)

theorem loopParent_zero : (identifyLoops g).loopParent 0 = 0 := by
  obtain ⟨⟨anc, pre, hn, -⟩, -⟩ := identifyLoops_spec (g := g)
  by_contra h0
  have hmem := (hn.header 0 g.numBlocks_pos h0).1
  rw [hn.tree.anc_root g.numBlocks_pos, List.mem_singleton] at hmem
  exact h0 hmem

/-- The headers that `build_block_layout` goes on with: the entry is marked as a head. -/
def headerForest : HeaderForest where
  numBlocks := g.numBlocks
  loopParent := (identifyLoops g).loopParent
  loopHeads := Function.update (identifyLoops g).loopHeads 0 true
  numBlocks_pos := g.numBlocks_pos
  parent_lt x hx := by
    obtain ⟨⟨anc, pre, hn, -⟩, -⟩ := identifyLoops_spec (g := g)
    by_cases h0 : (identifyLoops g).loopParent x = 0
    · rw [h0]
      exact g.numBlocks_pos
    · exact hn.tree.anc_mem hx (hn.header x hx h0).1
  parent_head x hx := by
    by_cases h0 : (identifyLoops g).loopParent x = 0
    · rw [h0, Function.update_self]
    · rw [Function.update_of_ne h0, identifyLoops_spec.2.1]
      exact .inl ⟨h0, x, hx, rfl⟩
  parent_zero := loopParent_zero g
  rank := by
    obtain ⟨⟨anc, pre, hn, -⟩, -⟩ := identifyLoops_spec (g := g)
    refine ⟨fun x => (anc x).length, fun x hx h0 => ?_, fun x hx => ?_⟩
    · obtain ⟨hmem, hne⟩ := hn.header x hx h0
      exact hn.tree.length_lt hx hmem hne
    · have hsub : anc x ⊆ List.range g.numBlocks := fun y hy =>
        List.mem_range.mpr (hn.tree.anc_mem hx hy)
      simpa using (List.subperm_of_subset (hn.tree.nodup hx) hsub).length_le

/-- The tree of the loops of a graph. -/
def loopTree : LoopTree := headerTree (headerForest g)

variable {g}

/-- The blocks of the loop of a head other than the entry. -/
theorem mem_loopTree_blocks {x h : ℕ} (hh : h < g.numBlocks) (hhead : (headerForest g).loopHeads h = true)
    (h0 : h ≠ 0) : x ∈ (loopTree g).blocks (blockLoop (headerForest g) h) ↔ x ∈ loopBody g h := by
  rw [loopTree, mem_headerTree_blocks hh hhead]
  exact and_congr_right fun _ => or_iff_right h0

end

end Tpde.Analyzer
