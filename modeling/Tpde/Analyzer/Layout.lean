import Tpde.Analyzer.LoopTree

/-!
# The block layout

The second half of `Analyzer::build_loop_tree_and_block_layout`: the blocks are
placed in reverse post-order, each at the end of its loop; a loop is placed as a
whole, at the end of its parent, when the first block of it comes.

What is placed at the end of a loop is an item of the loop (`Item`): a block of
its own, or a loop right inside it. `Packed` says that the items of each loop
stand behind each other in the order in which their first blocks come.
-/

namespace Tpde.Analyzer

open FlowGraph Relation

/-! ### The model -/

namespace LoopTable

/-- Room for a loop at the end of its parent. -/
def reserve (l : LoopTable) (parent loopIdx : ℕ) : LoopTable :=
  let loopBegin := l.endIdx parent
  { l with
    endIdx :=
      Function.update (Function.update l.endIdx parent (loopBegin + l.numBlocks loopIdx)) loopIdx loopBegin
    beginIdx := Function.update l.beginIdx loopIdx (some loopBegin) }

/-- `layout_loop`; the recursion goes up to the first parent that is laid out. -/
def layoutLoop : ℕ → LoopTable → ℕ → LoopTable
  | 0, l, _ => l
  | n + 1, l, loopIdx =>
    let parent := l.parent loopIdx
    let l := if l.beginIdx parent = none then layoutLoop n l parent else l
    l.reserve parent loopIdx

/-- `loops[0].begin = loops[0].end = 0`. -/
def layoutRoot (l : LoopTable) : LoopTable :=
  { l with beginIdx := Function.update l.beginIdx 0 (some 0), endIdx := Function.update l.endIdx 0 0 }

/-- `loops[loopIdx].end = i`. -/
def setEnd (l : LoopTable) (loopIdx i : ℕ) : LoopTable :=
  { l with endIdx := Function.update l.endIdx loopIdx i }

end LoopTable

/-- The loops, `block_layout`, `block_loop_map` and the block info; blocks go by their number in
reverse post-order. -/
structure LayoutState where
  loops : LoopTable
  blockLayout : ℕ → ℕ
  blockLoopMap : ℕ → ℕ
  blockInfo : ℕ → ℕ

/-- Place a block at the end of its loop. -/
def LayoutState.put (s : LayoutState) (loops : LoopTable) (loopIdx i : ℕ) : LayoutState :=
  let blockIdx := loops.endIdx loopIdx
  { loops := loops.setEnd loopIdx (blockIdx + 1)
    blockLayout := Function.update s.blockLayout blockIdx i
    blockLoopMap := Function.update s.blockLoopMap blockIdx loopIdx
    blockInfo := Function.update s.blockInfo i blockIdx }

/-- One round of the loop over the blocks. -/
def layoutStep (loopOf : ℕ → ℕ) (s : LayoutState) (i : ℕ) : LayoutState :=
  let loopIdx := loopOf i
  let loops :=
    if s.loops.beginIdx loopIdx = none then s.loops.layoutLoop s.loops.size loopIdx else s.loops
  s.put loops loopIdx i

/-- The loop over the blocks. -/
def layoutBlocks (loops : LoopTable) (loopOf : ℕ → ℕ) (numBlocks : ℕ) : LayoutState :=
  (List.range numBlocks).foldl (layoutStep loopOf) ⟨loops.layoutRoot, fun _ => 0, fun _ => 0, fun _ => 0⟩

/-- `build_block_layout` behind the block order. -/
def buildLayout (g : RpoGraph) : LayoutState :=
  layoutBlocks (loopTable (headerForest g)) (blockLoop (headerForest g)) g.numBlocks

/-! ### Items -/

/-- What is placed in a loop: a block, or a loop with all its blocks. -/
inductive Item where
  | block (x : ℕ)
  | loop (c : ℕ)

namespace Item

variable (T : LoopTree)

/-- The loop that the item is placed in. -/
def owner : Item → ℕ
  | block x => T.loopOf x
  | loop c => T.parent c

/-- The blocks of the item. -/
noncomputable def members : Item → Finset ℕ
  | block x => {x}
  | loop c => T.blocks c

/-- The item is one of the tree. -/
def Valid : Item → Prop
  | block x => x < T.numBlocks
  | loop c => c ≠ 0 ∧ c < T.size

/-- The first block of the item. -/
noncomputable def first (i : Item) : ℕ := sInf {x | x ∈ i.members T}

variable {T}

theorem members_nonempty {i : Item} (h : i.Valid T) : (i.members T).Nonempty := by
  cases i with
  | block x => exact ⟨x, Finset.mem_singleton_self x⟩
  | loop c => exact LoopTree.blocks_nonempty h.2

theorem first_mem {i : Item} (h : i.Valid T) : i.first T ∈ i.members T := Nat.sInf_mem (members_nonempty h)

theorem first_le {i : Item} {x : ℕ} (hx : x ∈ i.members T) : i.first T ≤ x := Nat.sInf_le hx

theorem members_subset {i : Item} (h : i.Valid T) : i.members T ⊆ T.blocks (i.owner T) := by
  cases i with
  | block x =>
    intro y hy
    obtain rfl := Finset.mem_singleton.mp hy
    exact LoopTree.mem_blocks.mpr ⟨h, .refl _⟩
  | loop c => exact LoopTree.blocks_subset (.parent h.1)

/-- The items of a loop have no block in common. -/
theorem eq_of_mem {i j : Item} {x : ℕ} (hi : i.Valid T) (hj : j.Valid T) (ho : i.owner T = j.owner T)
    (hx : x ∈ i.members T) (hx' : x ∈ j.members T) : i = j := by
  have key : ∀ c, (loop c).Valid T → x ∈ T.blocks c → T.loopOf x ≠ T.parent c := by
    intro c hc hxc heq
    obtain ⟨hxn, hu⟩ := LoopTree.mem_blocks.mp hxc
    have hle := hu.le (T.loopOf_lt x hxn)
    have hlt := T.parent_lt c hc.2 hc.1
    omega
  cases i with
  | block y =>
    obtain rfl := Finset.mem_singleton.mp hx
    cases j with
    | block z =>
      obtain rfl := Finset.mem_singleton.mp hx'
      rfl
    | loop c => exact absurd ho (key c hj hx')
  | loop c =>
    cases j with
    | block z =>
      obtain rfl := Finset.mem_singleton.mp hx'
      exact absurd ho.symm (key c hi hx)
    | loop d =>
      obtain ⟨hxn, hu⟩ := LoopTree.mem_blocks.mp hx
      exact congrArg loop
        (LoopTree.child_unique (T.loopOf_lt x hxn) hu (LoopTree.mem_blocks.mp hx').2 hi.1 hj.1 ho)

/-- Every block of a loop is in an item of it. -/
theorem exists_of_mem {L x : ℕ} (hx : x ∈ T.blocks L) : ∃ i : Item, i.Valid T ∧ i.owner T = L ∧
    x ∈ i.members T := by
  obtain ⟨hxn, hu⟩ := LoopTree.mem_blocks.mp hx
  by_cases hL : T.loopOf x = L
  · exact ⟨block x, hxn, hL, Finset.mem_singleton_self x⟩
  · obtain ⟨c, hc, hc0, hp⟩ := hu.child hL
    exact ⟨loop c, ⟨hc0, (hc.le (T.loopOf_lt x hxn)).trans_lt (T.loopOf_lt x hxn)⟩, hp,
      LoopTree.mem_blocks.mpr ⟨hxn, hc⟩⟩

/-- Two blocks are in different items of the innermost loop around both. -/
theorem exists_split {x y : ℕ} (hx : x < T.numBlocks) (hy : y < T.numBlocks) (hxy : x ≠ y) :
    ∃ i j : Item, i.Valid T ∧ j.Valid T ∧ i.owner T = j.owner T ∧ x ∈ i.members T ∧ y ∈ j.members T ∧ i ≠ j ∧
      ∀ L, x ∈ T.blocks L → y ∈ T.blocks L → T.Under (i.owner T) L := by
  classical
  let P : ℕ → Prop := fun L => x ∈ T.blocks L ∧ y ∈ T.blocks L
  have hbound : ∀ L, P L → L ≤ T.loopOf x := fun L hL =>
    (LoopTree.mem_blocks.mp hL.1).2.le (T.loopOf_lt x hx)
  have hP0 : P 0 := by
    simp only [P, LoopTree.blocks_zero, Finset.mem_range]
    exact ⟨hx, hy⟩
  have hspec : P (Nat.findGreatest P (T.loopOf x)) := Nat.findGreatest_spec (Nat.zero_le _) hP0
  obtain ⟨i, hi, hio, hxi⟩ := exists_of_mem hspec.1
  obtain ⟨j, hj, hjo, hyj⟩ := exists_of_mem hspec.2
  refine ⟨i, j, hi, hj, hio.trans hjo.symm, hxi, hyj, ?_, fun L hxL hyL => ?_⟩
  · rintro rfl
    cases i with
    | block z => exact hxy ((Finset.mem_singleton.mp hxi).trans (Finset.mem_singleton.mp hyj).symm)
    | loop c =>
      -- a child with both blocks would be further inside
      have hle := Nat.le_findGreatest (P := P) (hbound c ⟨hxi, hyj⟩) ⟨hxi, hyj⟩
      have hlt := T.parent_lt c hi.2 hi.1
      rw [← hio] at hle
      exact absurd hlt (Nat.not_lt.mpr hle)
  · rw [hio]
    have hle := Nat.le_findGreatest (P := P) (hbound L ⟨hxL, hyL⟩) ⟨hxL, hyL⟩
    have huL := (LoopTree.mem_blocks.mp hxL).2
    rcases (LoopTree.mem_blocks.mp hspec.1).2.total huL with hu | hu
    · exact hu
    · have hge := hu.le ((huL.le (T.loopOf_lt x hx)).trans_lt (T.loopOf_lt x hx))
      rw [le_antisymm hge hle]
      exact .refl L

end Item

/-! ### Packing -/

section
variable {T : LoopTree} {u : ℕ} {placed placed' : Item → Prop} {pos pos' : Item → ℕ} {laid laid' : ℕ → Prop}
  {start start' fin fin' : ℕ → ℕ}

open Classical in
/-- The blocks of the items that are placed in a loop. -/
noncomputable def filled (T : LoopTree) (placed : Item → Prop) (L : ℕ) : Finset ℕ :=
  (T.blocks L).filter fun x => ∃ i : Item, i.Valid T ∧ placed i ∧ i.owner T = L ∧ x ∈ i.members T

theorem mem_filled {L x : ℕ} : x ∈ filled T placed L ↔
    x ∈ T.blocks L ∧ ∃ i : Item, i.Valid T ∧ placed i ∧ i.owner T = L ∧ x ∈ i.members T := by
  simp [filled]

theorem filled_subset (L : ℕ) : filled T placed L ⊆ T.blocks L := fun _ hx => (mem_filled.mp hx).1

/-- The items that are placed, `pos`, in the loops that are laid out, from `start` to `fin`; they all
have a block below `u`. -/
structure Packed (T : LoopTree) (u : ℕ) (placed : Item → Prop) (pos : Item → ℕ) (laid : ℕ → Prop)
    (start fin : ℕ → ℕ) : Prop where
  laid_owner : ∀ i : Item, i.Valid T → placed i → laid (i.owner T)
  inside : ∀ i : Item, i.Valid T → placed i →
    start (i.owner T) ≤ pos i ∧ pos i + (i.members T).card ≤ fin (i.owner T)
  order : ∀ i j : Item, i.Valid T → j.Valid T → placed i → placed j → i.owner T = j.owner T →
    i.first T < j.first T → pos i + (i.members T).card ≤ pos j
  /-- A loop is filled from its start on. -/
  cursor : ∀ L, laid L → fin L = start L + (filled T placed L).card
  bound : ∀ i : Item, i.Valid T → placed i → i.first T < u

namespace Packed

/-- An item is placed at the end of its loop. -/
theorem place (h : Packed T u placed pos laid start fin) {i : Item} (hi : i.Valid T) (hnew : ¬ placed i)
    (hlaid : laid (i.owner T)) (hu : i.first T + 1 = u) (hplaced : ∀ j, placed' j ↔ placed j ∨ j = i)
    (hpos : ∀ j, j ≠ i → pos' j = pos j) (hposi : pos' i = fin (i.owner T))
    (hfin : ∀ L, L ≠ i.owner T → fin' L = fin L)
    (hfini : fin' (i.owner T) = fin (i.owner T) + (i.members T).card) :
    Packed T u placed' pos' laid start fin' := by
  have hne : ∀ j, placed j → j ≠ i := fun j hj hji => hnew (hji ▸ hj)
  have hmono : ∀ L, fin L ≤ fin' L := by
    intro L
    by_cases hL : L = i.owner T
    · subst hL
      omega
    · exact (hfin L hL).ge
  constructor
  · intro j hj hjp
    rcases (hplaced j).mp hjp with hjp | rfl
    · exact h.laid_owner j hj hjp
    · exact hlaid
  · intro j hj hjp
    rcases (hplaced j).mp hjp with hjp | rfl
    · rw [hpos j (hne j hjp)]
      exact ⟨(h.inside j hj hjp).1, (h.inside j hj hjp).2.trans (hmono _)⟩
    · rw [hposi, hfini]
      have := h.cursor _ hlaid
      omega
  · intro j k hj hk hjp hkp ho hlt
    rcases (hplaced j).mp hjp with hjp | rfl
    · rw [hpos j (hne j hjp)]
      rcases (hplaced k).mp hkp with hkp | rfl
      · rw [hpos k (hne k hkp)]
        exact h.order j k hj hk hjp hkp ho hlt
      · rw [hposi, ← ho]
        exact (h.inside j hj hjp).2
    · -- nothing in the loop starts later than the new item
      rcases (hplaced k).mp hkp with hkp | rfl
      · have := h.bound k hk hkp
        omega
      · exact absurd hlt (lt_irrefl _)
  · intro L hL
    by_cases hLo : L = i.owner T
    · subst hLo
      have hunion : filled T placed' (i.owner T) = filled T placed (i.owner T) ∪ i.members T := by
        ext x
        simp only [mem_filled, Finset.mem_union, hplaced]
        constructor
        · rintro ⟨hx, j, hj, hjp | rfl, hjo, hxj⟩
          · exact .inl ⟨hx, j, hj, hjp, hjo, hxj⟩
          · exact .inr hxj
        · rintro (⟨hx, j, hj, hjp, hjo, hxj⟩ | hx)
          · exact ⟨hx, j, hj, .inl hjp, hjo, hxj⟩
          · exact ⟨Item.members_subset hi hx, i, hi, .inr rfl, rfl, hx⟩
      have hdisj : Disjoint (filled T placed (i.owner T)) (i.members T) := by
        refine Finset.disjoint_left.mpr fun x hx hxi => ?_
        obtain ⟨-, j, hj, hjp, hjo, hxj⟩ := mem_filled.mp hx
        exact hne j hjp (Item.eq_of_mem hj hi hjo hxj hxi)
      rw [hunion, Finset.card_union_of_disjoint hdisj, hfini, h.cursor _ hL]
      omega
    · have hsame : filled T placed' L = filled T placed L := by
        ext x
        simp only [mem_filled, hplaced]
        refine and_congr_right fun _ => ⟨?_, ?_⟩
        · rintro ⟨j, hj, hjp | rfl, hjo, hxj⟩
          · exact ⟨j, hj, hjp, hjo, hxj⟩
          · exact absurd hjo.symm hLo
        · rintro ⟨j, hj, hjp, hjo, hxj⟩
          exact ⟨j, hj, .inl hjp, hjo, hxj⟩
      rw [hsame, hfin L hLo, h.cursor L hL]
  · intro j hj hjp
    rcases (hplaced j).mp hjp with hjp | rfl
    · exact h.bound j hj hjp
    · omega

/-- An empty loop is laid out. -/
theorem lay (h : Packed T u placed pos laid start fin) {c p : ℕ} (hnew : ¬ laid c)
    (hlaid : ∀ L, laid' L ↔ laid L ∨ L = c) (hstart : ∀ L, L ≠ c → start' L = start L)
    (hfin : ∀ L, L ≠ c → fin' L = fin L) (hstartc : start' c = p) (hfinc : fin' c = p) :
    Packed T u placed pos laid' start' fin' := by
  have hne : ∀ i : Item, i.Valid T → placed i → i.owner T ≠ c := fun i hi hip hic =>
    hnew (hic ▸ h.laid_owner i hi hip)
  constructor
  · exact fun i hi hip => (hlaid _).mpr (.inl (h.laid_owner i hi hip))
  · intro i hi hip
    rw [hstart _ (hne i hi hip), hfin _ (hne i hi hip)]
    exact h.inside i hi hip
  · exact h.order
  · intro L hL
    by_cases hLc : L = c
    · subst hLc
      have hempty : filled T placed L = ∅ := by
        refine Finset.eq_empty_of_forall_notMem fun x hx => ?_
        obtain ⟨-, i, hi, hip, hio, -⟩ := mem_filled.mp hx
        exact hne i hi hip hio
      rw [hempty, hstartc, hfinc]
      rfl
    · rw [hstart L hLc, hfin L hLc]
      exact h.cursor L (((hlaid L).mp hL).resolve_right hLc)
  · exact h.bound

/-- There is room for everything. -/
theorem fin_le (h : Packed T u placed pos laid start fin) {L : ℕ} (hL : laid L) :
    fin L ≤ start L + (T.blocks L).card := by
  rw [h.cursor L hL]
  exact Nat.add_le_add_left (Finset.card_le_card (filled_subset L)) _

theorem mono {u' : ℕ} (h : Packed T u placed pos laid start fin) (hu : u ≤ u') :
    Packed T u' placed pos laid start fin :=
  { h with bound := fun i hi hip => (h.bound i hi hip).trans_le hu }

end Packed

end

/-! ### The rounds -/

/-- The items that are placed when the blocks below `t` are. -/
def placedOf (t : ℕ) (l : LoopTable) : Item → Prop
  | .block x => x < t
  | .loop c => l.beginIdx c ≠ none

/-- Where the items start. -/
def posOf (l : LoopTable) (info : ℕ → ℕ) : Item → ℕ
  | .block x => info x
  | .loop c => (l.beginIdx c).getD 0

/-- What holds of the loops and the block info when the blocks below `t` have been placed. -/
structure LayoutInv (T : LoopTree) (u t : ℕ) (l : LoopTable) (info : ℕ → ℕ) : Prop where
  size_eq : l.size = T.size
  parent_eq : l.parent = T.parent
  numBlocks_eq : ∀ L < T.size, l.numBlocks L = (T.blocks L).card
  root : l.beginIdx 0 = some 0
  packed : Packed T u (placedOf t l) (posOf l info) (fun L => l.beginIdx L ≠ none)
    (fun L => (l.beginIdx L).getD 0) l.endIdx

namespace LayoutInv

variable {T : LoopTree} {u t : ℕ} {l : LoopTable} {info : ℕ → ℕ}

/-- The loops around a loop that is laid out are. -/
theorem laid_under (h : LayoutInv T u t l info) {a b : ℕ} (ha : a < T.size) (hab : T.Under a b)
    (hl : l.beginIdx a ≠ none) : l.beginIdx b ≠ none := by
  induction hab with
  | refl => exact hl
  | @tail c d hac he ih =>
    obtain ⟨hc0, rfl⟩ := he
    exact h.packed.laid_owner (.loop c) ⟨hc0, (LoopTree.Under.le hac ha).trans_lt ha⟩ ih

/-- A placed block stands in the loops around it. -/
theorem mem_loop (h : LayoutInv T u t l info) {x L : ℕ} (hx : x < t) (hxn : x ∈ T.blocks L) :
    l.beginIdx L ≠ none ∧ (l.beginIdx L).getD 0 ≤ info x ∧ info x < l.endIdx L := by
  obtain ⟨hn, hu⟩ := LoopTree.mem_blocks.mp hxn
  have hlt := T.loopOf_lt x hn
  clear hxn
  induction hu with
  | refl =>
    have hin := h.packed.inside (.block x) hn hx
    have hcard : ((Item.block x).members T).card = 1 := rfl
    rw [hcard] at hin
    exact ⟨h.packed.laid_owner (.block x) hn hx, hin⟩
  | @tail c d hac he ih =>
    obtain ⟨hc0, rfl⟩ := he
    obtain ⟨hlaid, h1, h2⟩ := ih
    have hv : (Item.loop c).Valid T := ⟨hc0, (LoopTree.Under.le hac hlt).trans_lt hlt⟩
    have hin := h.packed.inside (.loop c) hv hlaid
    have hfin := h.packed.fin_le hlaid
    simp only [Item.owner, Item.members, posOf] at hin
    exact ⟨h.packed.laid_owner (.loop c) hv hlaid, by omega, by omega⟩

/-- A placed block stands in the items that it is in. -/
theorem mem_item (h : LayoutInv T u t l info) {i : Item} {x : ℕ} (hx : x < t) (hi : i.Valid T)
    (hxi : x ∈ i.members T) :
    placedOf t l i ∧ posOf l info i ≤ info x ∧ info x < posOf l info i + (i.members T).card := by
  cases i with
  | block y =>
    obtain rfl := Finset.mem_singleton.mp hxi
    exact ⟨hx, le_rfl, Nat.lt_succ_self _⟩
  | loop c =>
    obtain ⟨hlaid, h1, h2⟩ := h.mem_loop hx hxi
    exact ⟨hlaid, h1, h2.trans_le (h.packed.fin_le hlaid)⟩

/-- Placed blocks in two items of a loop stand in the order of the items. -/
theorem pos_lt (h : LayoutInv T u t l info) {i j : Item} {x y : ℕ} (hx : x < t) (hy : y < t) (hi : i.Valid T)
    (hj : j.Valid T) (ho : i.owner T = j.owner T) (hxi : x ∈ i.members T) (hyj : y ∈ j.members T)
    (hlt : i.first T < j.first T) : info x < info y := by
  obtain ⟨hip, -, hix⟩ := h.mem_item hx hi hxi
  obtain ⟨hjp, hjy, -⟩ := h.mem_item hy hj hyj
  exact hix.trans_le ((h.packed.order i j hi hj hip hjp ho hlt).trans hjy)

theorem pos_inj (h : LayoutInv T u t l info) {x y : ℕ} (hx : x < t) (hy : y < t) (hxn : x < T.numBlocks)
    (hyn : y < T.numBlocks) (hxy : info x = info y) : x = y := by
  by_contra hne
  obtain ⟨i, j, hi, hj, ho, hxi, hyj, hij, -⟩ := Item.exists_split hxn hyn hne
  have hfirst : i.first T ≠ j.first T := fun hf =>
    hij (Item.eq_of_mem hi hj ho (Item.first_mem hi) (hf ▸ Item.first_mem hj))
  rcases Nat.lt_or_gt_of_ne hfirst with hlt | hlt
  · exact absurd hxy (h.pos_lt hx hy hi hj ho hxi hyj hlt).ne
  · exact absurd hxy.symm (h.pos_lt hy hx hj hi ho.symm hyj hxi hlt).ne

/-- The first block of a loop that is not laid out is the next one. -/
theorem first_eq (h : LayoutInv T u t l info) {c : ℕ} (hc : c < T.size) (ht : t ∈ T.blocks c)
    (hnew : l.beginIdx c = none) : (Item.loop c).first T = t := by
  refine le_antisymm (Item.first_le ht) ?_
  by_contra hlt
  have hf := LoopTree.mem_blocks.mp (Nat.sInf_mem (LoopTree.blocks_nonempty hc) :
    (Item.loop c).first T ∈ T.blocks c)
  have hlaid := h.packed.laid_owner (.block ((Item.loop c).first T)) hf.1 (Nat.not_le.mp hlt)
  exact h.laid_under (T.loopOf_lt _ hf.1) hf.2 hlaid hnew

/-- A loop is laid out at the end of its parent. -/
theorem reserve (h : LayoutInv T (t + 1) t l info) {c : ℕ} (hv : (Item.loop c).Valid T)
    (hp : l.beginIdx (T.parent c) ≠ none) (hnew : l.beginIdx c = none) (hfirst : (Item.loop c).first T = t) :
    LayoutInv T (t + 1) t (l.reserve (T.parent c) c) info := by
  have hc0 : c ≠ 0 := hv.1
  have hpc : T.parent c ≠ c := (T.parent_lt c hv.2 hv.1).ne
  have hbegin : ∀ L, L ≠ c → (l.reserve (T.parent c) c).beginIdx L = l.beginIdx L := fun L hL =>
    Function.update_of_ne hL ..
  have hbeginc : (l.reserve (T.parent c) c).beginIdx c = some (l.endIdx (T.parent c)) :=
    Function.update_self ..
  have hplaced : placedOf t (l.reserve (T.parent c) c) = fun j => placedOf t l j ∨ j = .loop c := by
    funext j
    cases j with
    | block x => simp [placedOf]
    | loop d =>
      by_cases hd : d = c
      · simp [placedOf, hd, hbeginc]
      · simp [placedOf, hd, hbegin d hd]
  refine ⟨h.size_eq, h.parent_eq, h.numBlocks_eq, (hbegin 0 (Ne.symm hc0)).trans h.root, ?_⟩
  rw [hplaced]
  have hplace :
    Packed T (t + 1) (fun j => placedOf t l j ∨ j = .loop c) (posOf (l.reserve (T.parent c) c) info)
      (fun L => l.beginIdx L ≠ none) (fun L => (l.beginIdx L).getD 0)
      (Function.update l.endIdx (T.parent c) (l.endIdx (T.parent c) + l.numBlocks c)) := by
    refine h.packed.place (i := .loop c) hv (fun hpl => hpl hnew) hp (by rw [hfirst]) (fun j => Iff.rfl) ?_ ?_
      (fun L hL => Function.update_of_ne hL ..) ?_
    · intro j hj
      cases j with
      | block x => rfl
      | loop d =>
        have hd : d ≠ c := fun hd => hj (hd ▸ rfl)
        simp [posOf, hbegin d hd]
    · simp [posOf, hbeginc, Item.owner]
    · change Function.update l.endIdx (T.parent c) _ (T.parent c) = _
      rw [Function.update_self, h.numBlocks_eq c hv.2]
      rfl
  refine hplace.lay (c := c) (p := l.endIdx (T.parent c)) (fun hl => hl hnew) (fun L => ?_) (fun L hL => ?_)
    (fun L hL => ?_) ?_ ?_
  · by_cases hL : L = c
    · simp [hL, hbeginc]
    · simp [hL, hbegin L hL]
  · rw [hbegin L hL]
  · exact Function.update_of_ne hL ..
  · rw [hbeginc]
    rfl
  · exact Function.update_self ..

/-- `layout_loop` lays out a loop around the next block, and what is above it. -/
theorem layoutLoop (n : ℕ) {c : ℕ} (h : LayoutInv T (t + 1) t l info) (hn : c < n) (hc : c < T.size)
    (ht : t ∈ T.blocks c) (hnew : l.beginIdx c = none) :
    LayoutInv T (t + 1) t (l.layoutLoop n c) info ∧ (l.layoutLoop n c).beginIdx c ≠ none ∧
      ∀ L, c < L → (l.layoutLoop n c).beginIdx L = l.beginIdx L := by
  induction n generalizing c with
  | zero => omega
  | succ n ih =>
    have hc0 : c ≠ 0 := by
      rintro rfl
      rw [h.root] at hnew
      cases hnew
    have hv : (Item.loop c).Valid T := ⟨hc0, hc⟩
    have hlt := T.parent_lt c hc hc0
    have htp : t ∈ T.blocks (T.parent c) := LoopTree.blocks_subset (.parent hc0) ht
    have hself : ∀ (l : LoopTable) (p : ℕ), (l.reserve p c).beginIdx c ≠ none := by
      intro l p
      simp [LoopTable.reserve]
    have hother : ∀ (l : LoopTable) (p L : ℕ), c < L → (l.reserve p c).beginIdx L = l.beginIdx L := by
      intro l p L hL
      simp [LoopTable.reserve, Nat.ne_of_gt hL]
    rw [LoopTable.layoutLoop, h.parent_eq]
    split_ifs with hp
    · obtain ⟨h1, h2, h3⟩ := ih (by omega) (hlt.trans hc) htp hp
      have hnew' := (h3 c hlt).trans hnew
      refine ⟨h1.reserve hv h2 hnew' (h1.first_eq hc ht hnew'), hself _ _, fun L hL => ?_⟩
      rw [hother _ _ L hL]
      exact h3 L (hlt.trans hL)
    · exact ⟨h.reserve hv hp hnew (h.first_eq hc ht hnew), hself _ _, fun L hL => hother _ _ L hL⟩

/-- The next block is placed at the end of its loop. -/
theorem put (h : LayoutInv T (t + 1) t l info) (ht : t < T.numBlocks)
    (hlaid : l.beginIdx (T.loopOf t) ≠ none) :
    LayoutInv T (t + 1) (t + 1) (l.setEnd (T.loopOf t) (l.endIdx (T.loopOf t) + 1))
      (Function.update info t (l.endIdx (T.loopOf t))) := by
  refine ⟨h.size_eq, h.parent_eq, h.numBlocks_eq, h.root, ?_⟩
  have hfirst : (Item.block t).first T = t :=
    Finset.mem_singleton.mp (Item.first_mem (T := T) (i := .block t) ht)
  refine h.packed.place (i := .block t) ht (lt_irrefl t) hlaid (by rw [hfirst]) (fun j => ?_)
    (fun j hj => ?_) ?_
    (fun L hL => Function.update_of_ne hL ..) ?_
  · cases j with
    | block x =>
      simp only [placedOf, Item.block.injEq]
      omega
    | loop c => simp [placedOf, LoopTable.setEnd]
  · cases j with
    | block x =>
      have hx : x ≠ t := fun hx => hj (hx ▸ rfl)
      simp [posOf, hx]
    | loop c => rfl
  · simp [posOf, Item.owner]
  · exact Function.update_self ..

end LayoutInv

/-- What a round keeps of the whole state. -/
structure StateInv (T : LoopTree) (t : ℕ) (s : LayoutState) : Prop where
  layout : LayoutInv T t t s.loops s.blockInfo
  blockLayout : ∀ x < t, s.blockLayout (s.blockInfo x) = x
  blockLoopMap : ∀ x < t, s.blockLoopMap (s.blockInfo x) = T.loopOf x

section
variable {T : LoopTree}

theorem layoutStep_inv {t : ℕ} {s : LayoutState} (h : StateInv T t s) (ht : t < T.numBlocks) :
    StateInv T (t + 1) (layoutStep T.loopOf s t) := by
  obtain ⟨l, hl, hlaid, heq⟩ : ∃ l, LayoutInv T (t + 1) t l s.blockInfo ∧ l.beginIdx (T.loopOf t) ≠ none ∧
      layoutStep T.loopOf s t = s.put l (T.loopOf t) t := by
    have hinv : LayoutInv T (t + 1) t s.loops s.blockInfo :=
      { h.layout with packed := h.layout.packed.mono (Nat.le_succ t) }
    unfold layoutStep
    dsimp only
    split_ifs with hnew
    · have hlt := T.loopOf_lt t ht
      have hmem : t ∈ T.blocks (T.loopOf t) := LoopTree.mem_blocks.mpr ⟨ht, .refl _⟩
      obtain ⟨h1, h2, -⟩ := hinv.layoutLoop s.loops.size (hinv.size_eq ▸ hlt) hlt hmem hnew
      exact ⟨_, h1, h2, rfl⟩
    · exact ⟨_, hinv, hnew, rfl⟩
  have hput := hl.put ht hlaid
  rw [heq]
  have hinfo :
    (s.put l (T.loopOf t) t).blockInfo = Function.update s.blockInfo t (l.endIdx (T.loopOf t)) := rfl
  have hinfot : (s.put l (T.loopOf t) t).blockInfo t = l.endIdx (T.loopOf t) := Function.update_self ..
  -- the new place is none of the old ones
  have hfresh : ∀ x, x < t → s.blockInfo x ≠ l.endIdx (T.loopOf t) := by
    intro x hx hxe
    have hxt : (Function.update s.blockInfo t (l.endIdx (T.loopOf t))) x =
        (Function.update s.blockInfo t (l.endIdx (T.loopOf t))) t := by
      rw [Function.update_of_ne hx.ne, Function.update_self, hxe]
    exact hx.ne (hput.pos_inj (hx.trans (Nat.lt_succ_self t)) (Nat.lt_succ_self t) (hx.trans ht) ht hxt)
  refine ⟨hput, fun x hx => ?_, fun x hx => ?_⟩
  · rcases Nat.lt_succ_iff_lt_or_eq.mp hx with hx | rfl
    · rw [hinfo, Function.update_of_ne hx.ne]
      exact (Function.update_of_ne (hfresh x hx) ..).trans (h.blockLayout x hx)
    · rw [hinfot]
      exact Function.update_self ..
  · rcases Nat.lt_succ_iff_lt_or_eq.mp hx with hx | rfl
    · rw [hinfo, Function.update_of_ne hx.ne]
      exact (Function.update_of_ne (hfresh x hx) ..).trans (h.blockLoopMap x hx)
    · rw [hinfot]
      exact Function.update_self ..

/-- Before the first block nothing but the top-level loop is laid out. -/
theorem stateInv_init {l : LoopTable} (hsize : l.size = T.size) (hparent : l.parent = T.parent)
    (hnum : ∀ L < T.size, l.numBlocks L = (T.blocks L).card) (hfresh : ∀ L, l.beginIdx L = none) :
    StateInv T 0 ⟨l.layoutRoot, fun _ => 0, fun _ => 0, fun _ => 0⟩ := by
  have hbegin : ∀ L, L ≠ 0 → l.layoutRoot.beginIdx L = none := fun L hL =>
    (Function.update_of_ne hL ..).trans (hfresh L)
  have hroot : l.layoutRoot.beginIdx 0 = some 0 := by simp [LoopTable.layoutRoot]
  have hnone : ∀ i : Item, i.Valid T → ¬ placedOf 0 l.layoutRoot i := by
    intro i hi hp
    cases i with
    | block x => exact Nat.not_lt_zero x hp
    | loop c => exact hp (hbegin c hi.1)
  refine ⟨⟨hsize, hparent, hnum, hroot, ?_⟩, fun x hx => absurd hx (Nat.not_lt_zero x),
    fun x hx => absurd hx (Nat.not_lt_zero x)⟩
  refine ⟨fun i hi hp => absurd hp (hnone i hi), fun i hi hp => absurd hp (hnone i hi),
    fun i j hi _ hp => absurd hp (hnone i hi), fun L hL => ?_, fun i hi hp => absurd hp (hnone i hi)⟩
  have hL0 : L = 0 := by
    by_contra h0
    exact hL (hbegin L h0)
  subst hL0
  have hempty : filled T (placedOf 0 l.layoutRoot) 0 = ∅ := by
    ext x
    simp only [mem_filled, Finset.notMem_empty, iff_false]
    rintro ⟨-, i, hi, hp, -⟩
    exact hnone i hi hp
  rw [hempty, hroot]
  simp [LoopTable.layoutRoot]

/-- All blocks are placed. -/
theorem layoutBlocks_inv {l : LoopTable} (hsize : l.size = T.size) (hparent : l.parent = T.parent)
    (hnum : ∀ L < T.size, l.numBlocks L = (T.blocks L).card) (hfresh : ∀ L, l.beginIdx L = none) :
    StateInv T T.numBlocks (layoutBlocks l T.loopOf T.numBlocks) := by
  have key : ∀ n, n ≤ T.numBlocks → StateInv T n (layoutBlocks l T.loopOf n) := by
    intro n
    induction n with
    | zero => exact fun _ => stateInv_init hsize hparent hnum hfresh
    | succ n ih =>
      intro hn
      have h := layoutStep_inv (ih (by omega)) (by omega)
      rwa [layoutBlocks, List.range_succ, List.foldl_append, List.foldl_cons, List.foldl_nil]
  exact key _ le_rfl

end

/-! ### The layout -/

/-- Placing leaves the levels alone. -/
theorem layoutBlocks_level (l : LoopTable) (loopOf : ℕ → ℕ) (n : ℕ) :
    (layoutBlocks l loopOf n).loops.level = l.level := by
  have hloop : ∀ k (l : LoopTable) c, (l.layoutLoop k c).level = l.level := by
    intro k
    induction k with
    | zero => exact fun l c => rfl
    | succ k ih =>
      intro l c
      rw [LoopTable.layoutLoop]
      split_ifs
      · exact ih _ _
      · rfl
  induction n with
  | zero => rfl
  | succ n ih =>
    rw [layoutBlocks, List.range_succ, List.foldl_append, List.foldl_cons, List.foldl_nil]
    refine Eq.trans ?_ ih
    rw [layoutStep]
    split_ifs
    · exact hloop _ _ _
    · rfl

section
variable {g : RpoGraph}

theorem buildLayout_inv : StateInv (loopTree g) g.numBlocks (buildLayout g) := by
  obtain ⟨h1, h2, h3, h4, -⟩ := loopTable_spec (F := headerForest g)
  exact layoutBlocks_inv (T := loopTree g) h1 h2 h3 h4

variable (g) in
/-- The place of a block. -/
def place (x : ℕ) : ℕ := (buildLayout g).blockInfo x

/-- Blocks in two items of a loop stand in the order in which the first blocks of the items come. -/
theorem place_lt {i j : Item} {x y : ℕ} (hi : i.Valid (loopTree g)) (hj : j.Valid (loopTree g))
    (ho : i.owner (loopTree g) = j.owner (loopTree g)) (hx : x ∈ i.members (loopTree g))
    (hy : y ∈ j.members (loopTree g)) (hlt : i.first (loopTree g) < j.first (loopTree g)) :
    place g x < place g y :=
  buildLayout_inv.layout.pos_lt (LoopTree.mem_blocks.mp (Item.members_subset hi hx)).1
    (LoopTree.mem_blocks.mp (Item.members_subset hj hy)).1 hi hj ho hx hy hlt

theorem place_inj {x y : ℕ} (hx : x < g.numBlocks) (hy : y < g.numBlocks) (h : place g x = place g y) :
    x = y :=
  buildLayout_inv.layout.pos_inj hx hy hx hy h

theorem blockLayout_place {x : ℕ} (hx : x < g.numBlocks) : (buildLayout g).blockLayout (place g x) = x :=
  buildLayout_inv.blockLayout x hx

theorem blockLoopMap_place {x : ℕ} (hx : x < g.numBlocks) :
    (buildLayout g).blockLoopMap (place g x) = (loopTree g).loopOf x :=
  buildLayout_inv.blockLoopMap x hx

/-- The range of a loop, which holds as many blocks as the loop has. -/
theorem loop_range {L : ℕ} (hL : L < (loopTree g).size) : ∃ b, (buildLayout g).loops.beginIdx L = some b ∧
    (buildLayout g).loops.endIdx L = b + ((loopTree g).blocks L).card ∧
    (buildLayout g).loops.numBlocks L = ((loopTree g).blocks L).card ∧
    ∀ x ∈ (loopTree g).blocks L, b ≤ place g x ∧ place g x < b + ((loopTree g).blocks L).card := by
  have h := (buildLayout_inv (g := g)).layout
  obtain ⟨x, hx, hxL⟩ := (loopTree g).exists_block L hL
  have hlaid : (buildLayout g).loops.beginIdx L ≠ none := hxL ▸ h.packed.laid_owner (.block x) hx hx
  have hfilled : filled (loopTree g) (placedOf g.numBlocks (buildLayout g).loops) L =
    (loopTree g).blocks L := by
    ext y
    simp only [mem_filled, and_iff_left_iff_imp]
    intro hy
    obtain ⟨i, hi, hio, hyi⟩ := Item.exists_of_mem hy
    exact ⟨i, hi, (h.mem_item (LoopTree.mem_blocks.mp hy).1 hi hyi).1, hio, hyi⟩
  have hend := h.packed.cursor L hlaid
  rw [hfilled] at hend
  refine ⟨_, (Option.getD_of_ne_none hlaid 0).symm, hend, h.numBlocks_eq L hL, fun y hy => ?_⟩
  have hm := h.mem_loop (LoopTree.mem_blocks.mp hy).1 hy
  rw [hend] at hm
  exact hm.2

theorem place_lt_numBlocks {x : ℕ} (hx : x < g.numBlocks) : place g x < g.numBlocks := by
  obtain ⟨b, hb, -, -, hmem⟩ := loop_range (g := g) LoopTree.size_pos
  have hroot := (buildLayout_inv (g := g)).layout.root
  obtain rfl : 0 = b := Option.some_injective _ (hroot.symm.trans hb)
  have h0 : (loopTree g).blocks 0 = Finset.range g.numBlocks := LoopTree.blocks_zero
  rw [h0] at hmem
  simpa using (hmem x (Finset.mem_range.mpr hx)).2

/-- The places in the range of a loop are those of its blocks. -/
theorem mem_blocks_iff_place {L b x : ℕ} (hL : L < (loopTree g).size)
    (hb : (buildLayout g).loops.beginIdx L = some b) (hx : x < g.numBlocks) :
    x ∈ (loopTree g).blocks L ↔ b ≤ place g x ∧ place g x < b + ((loopTree g).blocks L).card := by
  obtain ⟨b', hb', -, -, hmem⟩ := loop_range hL
  obtain rfl : b = b' := Option.some_injective _ (hb.symm.trans hb')
  refine ⟨hmem x, fun hxr => ?_⟩
  have hinj : Set.InjOn (place g) ((loopTree g).blocks L) := fun y hy z hz hyz =>
    place_inj (LoopTree.mem_blocks.mp hy).1 (LoopTree.mem_blocks.mp hz).1 hyz
  have himage :
    ((loopTree g).blocks L).image (place g) = Finset.Ico b (b + ((loopTree g).blocks L).card) := by
    refine Finset.eq_of_subset_of_card_le (fun p hp => ?_) ?_
    · obtain ⟨y, hy, rfl⟩ := Finset.mem_image.mp hp
      exact Finset.mem_Ico.mpr (hmem y hy)
    · rw [Finset.card_image_of_injOn hinj, Nat.card_Ico]
      omega
  obtain ⟨y, hy, hyx⟩ := Finset.mem_image.mp (himage ▸ Finset.mem_Ico.mpr hxr)
  exact place_inj (LoopTree.mem_blocks.mp hy).1 hx hyx ▸ hy

/-- Every place is taken. -/
theorem exists_place {p : ℕ} (hp : p < g.numBlocks) : ∃ x < g.numBlocks, place g x = p := by
  have hinj : Set.InjOn (place g) (Finset.range g.numBlocks) := fun y hy z hz hyz =>
    place_inj (Finset.mem_range.mp hy) (Finset.mem_range.mp hz) hyz
  have himage : (Finset.range g.numBlocks).image (place g) = Finset.range g.numBlocks := by
    refine Finset.eq_of_subset_of_card_le (fun p hp => ?_) ?_
    · obtain ⟨y, hy, rfl⟩ := Finset.mem_image.mp hp
      exact Finset.mem_range.mpr (place_lt_numBlocks (Finset.mem_range.mp hy))
    · rw [Finset.card_image_of_injOn hinj]
  obtain ⟨x, hx, hxp⟩ := Finset.mem_image.mp (himage ▸ Finset.mem_range.mpr hp)
  exact ⟨x, Finset.mem_range.mp hx, hxp⟩

/-- The first block of a loop in reverse post-order comes first in the layout of the loop. -/
theorem place_first_le {L m x : ℕ} (hm : m ∈ (loopTree g).blocks L)
    (hmin : ∀ y ∈ (loopTree g).blocks L, m ≤ y)
    (hx : x ∈ (loopTree g).blocks L) : place g m ≤ place g x := by
  by_cases hmx : m = x
  · exact hmx ▸ le_rfl
  · obtain ⟨i, j, hi, hj, ho, hmi, hxj, hij, hunder⟩ :=
      Item.exists_split (LoopTree.mem_blocks.mp hm).1 (LoopTree.mem_blocks.mp hx).1 hmx
    have hsub := LoopTree.blocks_subset (hunder L hm hx)
    have hfirst : j.first (loopTree g) ≠ m := fun hf =>
      hij (Item.eq_of_mem hi hj ho hmi (hf ▸ Item.first_mem hj))
    have hle := hmin _ (hsub (ho ▸ Item.members_subset hj (Item.first_mem hj)))
    have hlt : i.first (loopTree g) < j.first (loopTree g) :=
      (Item.first_le hmi).trans_lt (lt_of_le_of_ne hle (Ne.symm hfirst))
    exact (place_lt hi hj ho hmi hxj hlt).le

/-- A loop begins with its first block in reverse post-order. -/
theorem begin_eq_place {L m : ℕ} (hL : L < (loopTree g).size) (hm : m ∈ (loopTree g).blocks L)
    (hmin : ∀ y ∈ (loopTree g).blocks L, m ≤ y) : (buildLayout g).loops.beginIdx L = some (place g m) := by
  obtain ⟨b, hb, -, -, hmem⟩ := loop_range hL
  have hpos : 0 < ((loopTree g).blocks L).card := Finset.card_pos.mpr ⟨m, hm⟩
  have hbm := hmem m hm
  have hlast : b < g.numBlocks := hbm.1.trans_lt (place_lt_numBlocks (LoopTree.mem_blocks.mp hm).1)
  obtain ⟨x, hx, hxb⟩ := exists_place hlast
  have hxL := (mem_blocks_iff_place hL hb hx).mpr (by omega)
  have hle := place_first_le hm hmin hxL
  rw [hb, Option.some_inj]
  omega

/-- The entry comes first. -/
theorem place_zero : place g 0 = 0 := by
  have h0 : (loopTree g).blocks 0 = Finset.range g.numBlocks := LoopTree.blocks_zero
  have hbegin := begin_eq_place (g := g) (L := 0) (m := 0) LoopTree.size_pos
    (h0 ▸ Finset.mem_range.mpr g.numBlocks_pos) (fun y _ => Nat.zero_le y)
  exact (Option.some_injective _ ((buildLayout_inv (g := g)).layout.root.symm.trans hbegin)).symm

end

end Tpde.Analyzer
