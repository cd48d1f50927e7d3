import Tpde.Analyzer.LoopSearch

/-!
# One visit of a value

What `visitInfo` does to an interval, in terms of the loops and their items. A
block in the lowest common loop adds the item of that loop that it is in
(`visitInfo_inside`). A block outside raises the loop to the lowest one around
both, and adds two items of it (`visitInfo_outside`).

The test for a block inside compares the level of the loops and the start of
the block's loop with the end of the other. It is right unless a deeper loop is
laid out before the lowest common loop, which `Straight` rules out. `VisitInv`
is what straight visits keep, and `visits_inv` follows by induction on them.
-/

namespace Tpde.Analyzer

open FlowGraph PointerForest Relation

variable {g : RpoGraph}

/-! ### Levels -/

theorem buildLayout_parent : (buildLayout g).loops.parent = (loopTree g).parent :=
  buildLayout_inv.layout.parent_eq

theorem level_zero : (buildLayout g).loops.level 0 = 0 := by
  obtain ⟨-, -, -, -, -, hl0, -⟩ := loopTable_spec (F := headerForest g)
  exact (congrFun (layoutBlocks_level _ _ _) 0).trans hl0

theorem level_parent {L : ℕ} (hL : L < (loopTree g).size) (h0 : L ≠ 0) :
    (buildLayout g).loops.level L = (buildLayout g).loops.level ((loopTree g).parent L) + 1 := by
  obtain ⟨-, hp, -, -, -, -, hlev⟩ := loopTable_spec (F := headerForest g)
  have hl := layoutBlocks_level (loopTable (headerForest g)) (blockLoop (headerForest g)) g.numBlocks
  have h := hlev L hL h0
  rw [hp] at h
  exact (congrFun hl L).trans (h.trans (congrArg (· + 1) (congrFun hl _).symm))

/-- The loops of a layout, as a tree. -/
theorem isTree_buildLayout : (buildLayout g).loops.IsTree ∧ (buildLayout g).loops.size = (loopTree g).size ∧
    (buildLayout g).loops.Under = (loopTree g).Under := by
  have hsize : (buildLayout g).loops.size = (loopTree g).size :=
    buildLayout_inv.layout.size_eq
  have hunder : (buildLayout g).loops.Under = (loopTree g).Under := by
    unfold LoopTable.Under LoopTree.Under
    rw [buildLayout_parent]
  refine ⟨⟨hsize ▸ LoopTree.size_pos, level_zero, fun L hL h0 => ?_, fun L hL h0 => ?_⟩, hsize, hunder⟩
  · rw [buildLayout_parent]
    exact (loopTree g).parent_lt L (hsize ▸ hL) h0
  · rw [buildLayout_parent]
    exact level_parent (hsize ▸ hL) h0

/-- A loop inside another is deeper, or the same. -/
theorem level_of_under {a b : ℕ} (h : (loopTree g).Under a b) (ha : a < (loopTree g).size) :
    a = b ∨ (buildLayout g).loops.level b < (buildLayout g).loops.level a := by
  obtain ⟨hT, hsize, hunder⟩ := isTree_buildLayout (g := g)
  exact hT.level_of_under (hunder ▸ h) (hsize ▸ ha)

/-- The loop that `while (cur_level != target_level)` stops at: the one right inside the target. -/
theorem targetLoop_spec {L c : ℕ} (hc : c < (loopTree g).size) (h : (loopTree g).Under c L) (hne : c ≠ L) :
    ∃ e,
      (buildLayout g).loops.targetLoop ((buildLayout g).loops.level L + 1)
      ((buildLayout g).loops.level c) c = e ∧
      (loopTree g).Under c e ∧ e ≠ 0 ∧ (loopTree g).parent e = L := by
  obtain ⟨hT, hsize, hunder⟩ := isTree_buildLayout (g := g)
  have := hT.targetLoop_spec (hsize ▸ hc) (hunder ▸ h) hne
  rwa [hunder, buildLayout_parent] at this

/-- The common loop of two loops one of which is not around the other, and the loops right inside it. -/
theorem commonLoop_spec {a b : ℕ} (ha : a < (loopTree g).size) (hb : b < (loopTree g).size)
    (hba : ¬ (loopTree g).Under b a) :
    (loopTree g).Under b (commonLoop (buildLayout g).loops a b).lhs ∧
    (∀ D, (loopTree g).Under a D → (loopTree g).Under b D →
      (loopTree g).Under (commonLoop (buildLayout g).loops a b).lhs D) ∧
    ((loopTree g).Under a (commonLoop (buildLayout g).loops a b).prevLhs ∧
      (commonLoop (buildLayout g).loops a b).prevLhs ≠ 0 ∧
      (loopTree g).parent (commonLoop (buildLayout g).loops a b).prevLhs =
        (commonLoop (buildLayout g).loops a b).lhs) ∧
    ((commonLoop (buildLayout g).loops a b).lhs ≠ b →
      (loopTree g).Under b (commonLoop (buildLayout g).loops a b).prevRhs ∧
      (commonLoop (buildLayout g).loops a b).prevRhs ≠ 0 ∧
      (loopTree g).parent (commonLoop (buildLayout g).loops a b).prevRhs =
        (commonLoop (buildLayout g).loops a b).lhs) := by
  obtain ⟨hT, hsize, hunder⟩ := isTree_buildLayout (g := g)
  have := commonLoop_meet hT (hsize ▸ ha) (hsize ▸ hb) (hunder ▸ hba)
  rwa [hunder, buildLayout_parent] at this

/-! ### Covering an item -/

/-- The first place of an item. -/
def Item.low (g : RpoGraph) : Item → ℕ
  | .block x => place g x
  | .loop c => (buildLayout g).loops.beginOf c

/-- The last place of an item. -/
def Item.high (g : RpoGraph) : Item → ℕ
  | .block x => place g x
  | .loop c => (buildLayout g).loops.endIdx c - 1

/-- An item is what stands from its first to its last place, where it has a block. -/
theorem Item.mem_iff {k : Item} (hk : k.Valid (loopTree g)) :
    (∀ x < g.numBlocks, x ∈ k.members (loopTree g) ↔ k.low g ≤ place g x ∧ place g x ≤ k.high g) ∧
      (∃ x ∈ k.members (loopTree g), place g x = k.low g) ∧ ∃ x ∈ k.members (loopTree g),
        place g x = k.high g := by
  cases k with
  | block y =>
    refine ⟨fun x hx => ?_, ⟨y, Finset.mem_singleton_self y, rfl⟩, y, Finset.mem_singleton_self y, rfl⟩
    refine Finset.mem_singleton.trans ⟨?_, fun h => place_inj hx hk (le_antisymm h.2 h.1)⟩
    rintro rfl
    exact ⟨le_rfl, le_rfl⟩
  | loop c =>
    obtain ⟨b, hb, hend, -, hmem⟩ := loop_range hk.2
    have hpos : 0 < ((loopTree g).blocks c).card := Finset.card_pos.mpr (LoopTree.blocks_nonempty hk.2)
    have hlow : Item.low g (.loop c) = b := by simp [Item.low, LoopTable.beginOf, hb]
    have hhigh : Item.high g (.loop c) = b + ((loopTree g).blocks c).card - 1 := by rw [Item.high, hend]
    have hiff : ∀ x < g.numBlocks, x ∈ (loopTree g).blocks c ↔
        Item.low g (.loop c) ≤ place g x ∧ place g x ≤ Item.high g (.loop c) := by
      intro x hx
      rw [mem_blocks_iff_place hk.2 hb hx, hlow, hhigh]
      omega
    -- as many blocks as places: every place is taken
    have hsurj :
      ((loopTree g).blocks c).image (place g) = Finset.Ico b (b + ((loopTree g).blocks c).card) := by
      refine Finset.eq_of_subset_of_card_le (fun p hp => ?_) ?_
      · obtain ⟨x, hx, rfl⟩ := Finset.mem_image.mp hp
        exact Finset.mem_Ico.mpr (hmem x hx)
      · rw [Nat.card_Ico, Finset.card_image_of_injOn fun y hy z hz hyz =>
          place_inj (LoopTree.mem_blocks.mp hy).1 (LoopTree.mem_blocks.mp hz).1 hyz]
        omega
    refine ⟨hiff, ?_, ?_⟩
    · exact Finset.mem_image.mp (hsurj ▸ Finset.mem_Ico.mpr (by omega))
    · exact Finset.mem_image.mp (hsurj ▸ Finset.mem_Ico.mpr (by omega))

/-- Extend an interval by an item: `update_for_block_only`, or `update_for_loop`. -/
def LivenessInfo.cover (g : RpoGraph) (i : LivenessInfo) : Item → LivenessInfo
  | .block x => i.updateForBlockOnly (place g x)
  | .loop c => i.updateForLoop ((buildLayout g).loops.beginOf c) ((buildLayout g).loops.endIdx c)

/-- Whether an item is a loop. -/
def Item.isLoop : Item → Bool
  | .block _ => false
  | .loop _ => true

@[simp] theorem cover_first (i : LivenessInfo) (k : Item) : (i.cover g k).first = min i.first (k.low g) := by
  cases k <;> rfl

@[simp] theorem cover_last (i : LivenessInfo) (k : Item) : (i.cover g k).last = max i.last (k.high g) := by
  cases k <;> rfl

@[simp] theorem cover_lowestCommonLoop (i : LivenessInfo) (k : Item) :
    (i.cover g k).lowestCommonLoop = i.lowestCommonLoop := by
  cases k <;> rfl

theorem cover_lastFull (i : LivenessInfo) (k : Item) :
    (i.cover g k).lastFull = if i.last = max i.last (k.high g) then i.lastFull else k.isLoop := by
  cases k <;> rfl

@[simp] theorem addRef_first (i : LivenessInfo) : i.addRef.first = i.first := rfl
@[simp] theorem addRef_last (i : LivenessInfo) : i.addRef.last = i.last := rfl
@[simp] theorem addRef_lastFull (i : LivenessInfo) : i.addRef.lastFull = i.lastFull := rfl
@[simp] theorem addRef_lowestCommonLoop (i : LivenessInfo) :
    i.addRef.lowestCommonLoop = i.lowestCommonLoop := rfl
@[simp] theorem setLoop_first (i : LivenessInfo) (L : ℕ) : (i.setLoop L).first = i.first := rfl
@[simp] theorem setLoop_last (i : LivenessInfo) (L : ℕ) : (i.setLoop L).last = i.last := rfl
@[simp] theorem setLoop_lastFull (i : LivenessInfo) (L : ℕ) : (i.setLoop L).lastFull = i.lastFull := rfl
@[simp] theorem setLoop_lowestCommonLoop (i : LivenessInfo) (L : ℕ) :
    (i.setLoop L).lowestCommonLoop = L := rfl

/-! ### A visit -/

/-- `visit`, for a block by its number. -/
def visitNode (g : RpoGraph) (epoch : ℕ) (i : LivenessInfo) (u : ℕ) : LivenessInfo :=
  visitInfo (buildLayout g).loops (buildLayout g).blockLoopMap epoch i (place g u)

section
variable {epoch u : ℕ} {i : LivenessInfo}

/-- A visit inside the lowest common loop covers the item of the block. -/
theorem visitNode_inside (he : i.epoch = epoch) (hu : u ∈ (loopTree g).blocks i.lowestCommonLoop) :
    ∃ k : Item, k.Valid (loopTree g) ∧ k.owner (loopTree g) = i.lowestCommonLoop ∧
      u ∈ k.members (loopTree g) ∧
      visitNode g epoch i u = i.addRef.cover g k := by
  obtain ⟨hun, hunder⟩ := LoopTree.mem_blocks.mp hu
  have hc := (loopTree g).loopOf_lt u hun
  unfold visitNode visitInfo
  rw [if_neg (not_not.mpr he), blockLoopMap_place hun]
  dsimp only
  rw [addRef_lowestCommonLoop]
  by_cases heq : i.lowestCommonLoop = (loopTree g).loopOf u
  · exact ⟨.block u, hun, heq.symm, Finset.mem_singleton_self u, by rw [if_pos heq]; rfl⟩
  · obtain ⟨e, htarget, hce, he0, hep⟩ := targetLoop_spec hc hunder (Ne.symm heq)
    have hlt := (level_of_under hunder hc).resolve_left (Ne.symm heq)
    have hLe : i.lowestCommonLoop < (loopTree g).size := (hunder.le hc).trans_lt hc
    -- the loop of the block starts inside the common loop
    have hbegin :
      (buildLayout g).loops.beginOf ((loopTree g).loopOf u) <
      (buildLayout g).loops.endIdx i.lowestCommonLoop := by
      have hc0 : (loopTree g).loopOf u ≠ 0 := by
        intro h0
        rw [h0, level_zero] at hlt
        omega
      obtain ⟨x, hx, hxp⟩ := (Item.mem_iff (k := .loop _) ⟨hc0, hc⟩).2.1
      obtain ⟨b, hb, hend, -, hmem⟩ := loop_range hLe
      have := (hmem x (LoopTree.blocks_subset hunder hx)).2
      have hlow : place g x = (buildLayout g).loops.beginOf ((loopTree g).loopOf u) := hxp
      omega
    refine ⟨.loop e, ⟨he0, (hce.le hc).trans_lt hc⟩, hep, LoopTree.mem_blocks.mpr ⟨hun, hce⟩, ?_⟩
    rw [if_neg heq, if_pos ⟨hlt, hbegin⟩, htarget]
    rfl

/-- A visit outside raises the lowest common loop and covers two items of it: the one around the old
loop and the one of the block. A deeper loop that is laid out before the old loop is not known to be
outside. -/
theorem visitNode_outside (he : i.epoch = epoch) (hL : i.lowestCommonLoop < (loopTree g).size)
    (hun : u < g.numBlocks)
    (hu : u ∉ (loopTree g).blocks i.lowestCommonLoop)
    (hs : (buildLayout g).loops.level i.lowestCommonLoop <
      (buildLayout g).loops.level ((loopTree g).loopOf u) →
      (buildLayout g).loops.beginOf i.lowestCommonLoop ≤
        (buildLayout g).loops.beginOf ((loopTree g).loopOf u)) :
    ∃ N p, ∃ k : Item, k.Valid (loopTree g) ∧ k.owner (loopTree g) = N ∧ u ∈ k.members (loopTree g) ∧
      (k.isLoop = false → N = (loopTree g).loopOf u) ∧
      (k.isLoop = true → N ≠ (loopTree g).loopOf u) ∧
      (loopTree g).Under i.lowestCommonLoop p ∧ p ≠ 0 ∧ (loopTree g).parent p = N ∧
      (∀ D, (loopTree g).Under i.lowestCommonLoop D → (loopTree g).Under ((loopTree g).loopOf u) D →
        (loopTree g).Under N D) ∧
      visitNode g epoch i u = ((i.addRef.setLoop N).cover g (.loop p)).cover g k := by
  have hc := (loopTree g).loopOf_lt u hun
  have hunder : ¬ (loopTree g).Under ((loopTree g).loopOf u) i.lowestCommonLoop := fun h =>
    hu (LoopTree.mem_blocks.mpr ⟨hun, h⟩)
  have hne : i.lowestCommonLoop ≠ (loopTree g).loopOf u := fun h => hunder (h ▸ .refl _)
  have htest :
    ¬ ((buildLayout g).loops.level i.lowestCommonLoop < (buildLayout g).loops.level ((loopTree g).loopOf u) ∧
      (buildLayout g).loops.beginOf ((loopTree g).loopOf u) <
        (buildLayout g).loops.endIdx i.lowestCommonLoop) := by
    rintro ⟨hlt, hbegin⟩
    have hc0 : (loopTree g).loopOf u ≠ 0 := by
      intro h0
      rw [h0, level_zero] at hlt
      omega
    -- the block at the start of the block's loop is in the common loop
    obtain ⟨x, hx, hxp⟩ := (Item.mem_iff (k := .loop _) ⟨hc0, hc⟩).2.1
    obtain ⟨b, hb, hend, -, -⟩ := loop_range hL
    have hxn := (LoopTree.mem_blocks.mp hx).1
    have hle := hs hlt
    have hlow : place g x = (buildLayout g).loops.beginOf ((loopTree g).loopOf u) := hxp
    have hlowL : (buildLayout g).loops.beginOf i.lowestCommonLoop = b := by simp [LoopTable.beginOf, hb]
    have hxL := (mem_blocks_iff_place hL hb hxn).mpr (by omega)
    rcases (LoopTree.mem_blocks.mp hx).2.total (LoopTree.mem_blocks.mp hxL).2 with h | h
    · exact hunder h
    · rcases level_of_under h hL with heq | hlt'
      · exact hne heq
      · omega
  obtain ⟨hright, hleast, ⟨hp, hp0, hpp⟩, hrhs⟩ := commonLoop_spec hL hc hunder
  unfold visitNode visitInfo
  rw [if_neg (not_not.mpr he), blockLoopMap_place hun]
  dsimp only
  rw [addRef_lowestCommonLoop, if_neg hne, if_neg htest]
  split_ifs with hlhs
  · exact ⟨_, _, .block u, hun, hlhs.symm, Finset.mem_singleton_self u, fun _ => hlhs, nofun, hp, hp0, hpp,
      hleast, rfl⟩
  · obtain ⟨hq, hq0, hqp⟩ := hrhs hlhs
    exact ⟨_, _, .loop _, ⟨hq0, (hq.le hc).trans_lt hc⟩, hqp, LoopTree.mem_blocks.mpr ⟨hun, hq⟩, nofun,
      fun _ => hlhs, hp, hp0, hpp, hleast, rfl⟩

end

/-! ### A run of visits -/

/-- `L` is the lowest loop around the blocks `us`. -/
structure IsCommon (g : RpoGraph) (L : ℕ) (us : List ℕ) : Prop where
  lt : L < (loopTree g).size
  mem : ∀ x ∈ us, x ∈ (loopTree g).blocks L
  least : ∀ D, (∀ x ∈ us, x ∈ (loopTree g).blocks D) → (loopTree g).Under L D

/-- When `m` is visited first, all that has been visited is in its innermost loop. -/
def FirstInside (g : RpoGraph) (us : List ℕ) (m : ℕ) : Prop :=
  ∃ pre post, us = pre ++ m :: post ∧ ∀ x ∈ pre, x ∈ (loopTree g).blocks ((loopTree g).loopOf m)

/-- What straight visits keep. -/
structure VisitInv (g : RpoGraph) (us : List ℕ) (i : LivenessInfo) : Prop where
  common : IsCommon g i.lowestCommonLoop us
  spans : ∀ x ∈ us, Spans g i.lowestCommonLoop i.first i.last x
  /-- The interval ends with an item that has been visited. -/
  attained : ∃ k : Item, k.Valid (loopTree g) ∧ k.owner (loopTree g) = i.lowestCommonLoop ∧
    k.high g = i.last ∧
    ∃ x ∈ us, x ∈ k.members (loopTree g)
  /-- `last_full` is unset when the last block has been visited as a block, and not on the way out of
  its loop. -/
  full : i.lastFull = false ↔ ∃ m, place g m = i.last ∧ FirstInside g us m

section
variable {us : List ℕ} {u : ℕ} {i : LivenessInfo}

theorem firstInside_snoc {m : ℕ} : FirstInside g (us ++ [u]) m ↔
    FirstInside g us m ∨ (m = u ∧ ∀ x ∈ us, x ∈ (loopTree g).blocks ((loopTree g).loopOf u)) := by
  constructor
  · rintro ⟨pre, post, heq, hpre⟩
    rcases List.eq_nil_or_concat post with rfl | ⟨post', v, rfl⟩
    · obtain ⟨rfl, h⟩ := List.append_inj' heq rfl
      obtain rfl : u = m := by simpa using h
      exact .inr ⟨rfl, hpre⟩
    · rw [List.concat_eq_append, ← List.cons_append, ← List.append_assoc] at heq
      exact .inl ⟨pre, post', (List.append_inj' heq rfl).1, hpre⟩
  · rintro (⟨pre, post, rfl, hpre⟩ | ⟨rfl, h⟩)
    · exact ⟨pre, post ++ [u], by simp, hpre⟩
    · exact ⟨us, [], rfl, h⟩

theorem FirstInside.mem {m : ℕ} (h : FirstInside g us m) : m ∈ us := by
  obtain ⟨pre, post, rfl, -⟩ := h
  simp

/-- An interval that has the places of an item in it spans it. -/
theorem spans_of_cover {k : Item} {L first last : ℕ} (hk : k.Valid (loopTree g))
    (ho : k.owner (loopTree g) = L)
    (hu : u ∈ k.members (loopTree g)) (hf : first ≤ k.low g) (hl : k.high g ≤ last) :
      Spans g L first last u := by
  refine ⟨k, hk, ho, hu, fun z hz => ?_⟩
  have hzn := (LoopTree.mem_blocks.mp (Item.members_subset hk hz)).1
  have := ((Item.mem_iff hk).1 z hzn).mp hz
  omega

theorem IsCommon.snoc {L N : ℕ} (h : IsCommon g L us) (hN : (loopTree g).Under L N)
    (hu : u ∈ (loopTree g).blocks N)
    (hleast : ∀ D, (loopTree g).Under L D → (loopTree g).Under ((loopTree g).loopOf u) D →
      (loopTree g).Under N D) :
    IsCommon g N (us ++ [u]) where
  lt := (hN.le h.lt).trans_lt h.lt
  mem x hx := by
    rcases List.mem_append.mp hx with hx | hx
    · exact LoopTree.blocks_subset hN (h.mem x hx)
    · exact List.mem_singleton.mp hx ▸ hu
  least D hD := by
    refine hleast D (h.least D fun x hx => hD x (List.mem_append_left _ hx)) ?_
    exact (LoopTree.mem_blocks.mp (hD u (by simp))).2

namespace VisitInv

theorem place_le (h : VisitInv g us i) {x : ℕ} (hx : x ∈ us) : place g x ≤ i.last := (h.spans x hx).bounds.2

/-- Everything up to the end of the interval that is in the common loop is in a loop around that. -/
theorem last_le (h : VisitInv g us i) {k : Item} (hk : k.Valid (loopTree g))
    (hsub : (loopTree g).blocks i.lowestCommonLoop ⊆ k.members (loopTree g)) : i.last ≤ k.high g := by
  obtain ⟨k', hk', ho', hhigh, -⟩ := h.attained
  obtain ⟨z, hz, hzp⟩ := (Item.mem_iff hk').2.2
  have hzL := Item.members_subset hk' hz
  rw [ho'] at hzL
  have hzn := (LoopTree.mem_blocks.mp hzL).1
  have := ((Item.mem_iff hk).1 z hzn).mp (hsub hzL)
  omega

/-- Another visit of the last block, or one that does not move the end, changes nothing about `last_full`. -/
theorem full_snoc (h : VisitInv g us i) (hun : u < g.numBlocks) :
    (∃ m, place g m = i.last ∧ FirstInside g (us ++ [u]) m) ↔ ∃ m, place g m = i.last ∧
      FirstInside g us m := by
  constructor
  · rintro ⟨m, hm, hfirst⟩
    rcases firstInside_snoc.mp hfirst with hfirst | ⟨rfl, hall⟩
    · exact ⟨m, hm, hfirst⟩
    · -- the block is an item of the common loop, so it has been visited
      obtain ⟨k, hk, ho, hhigh, x, hx, hxk⟩ := h.attained
      obtain ⟨z, hz, hzp⟩ := (Item.mem_iff hk).2.2
      have hzL := Item.members_subset hk hz
      rw [ho] at hzL
      obtain ⟨hzn, hzu⟩ := LoopTree.mem_blocks.mp hzL
      obtain rfl : z = m := place_inj hzn hun (by omega)
      have hle := (h.common.least _ hall).le h.common.lt
      have hL : i.lowestCommonLoop = (loopTree g).loopOf z :=
        le_antisymm (hzu.le ((loopTree g).loopOf_lt z hzn)) hle
      have hkz : k = .block z :=
        Item.eq_of_mem hk (j := .block z) hzn (ho.trans hL) hz (Finset.mem_singleton_self z)
      rw [hkz] at hxk
      obtain rfl := Finset.mem_singleton.mp hxk
      obtain ⟨pre, post, rfl⟩ := List.append_of_mem hx
      exact ⟨x, hm, pre, post, rfl, fun y hy => hall y (List.mem_append_left _ hy)⟩
  · rintro ⟨m, hm, hfirst⟩
    exact ⟨m, hm, firstInside_snoc.mpr (.inl hfirst)⟩

/-- A visit that moves the end to a place behind it. -/
theorem moved_snoc (h : VisitInv g us i) {last : ℕ} (hlt : i.last < last) :
    (∃ m, place g m = last ∧ FirstInside g (us ++ [u]) m) ↔
      place g u = last ∧ ∀ x ∈ us, x ∈ (loopTree g).blocks ((loopTree g).loopOf u) := by
  constructor
  · rintro ⟨m, hm, hfirst⟩
    rcases firstInside_snoc.mp hfirst with hfirst | ⟨rfl, hall⟩
    · have := h.place_le hfirst.mem
      omega
    · exact ⟨hm, hall⟩
  · rintro ⟨hu, hall⟩
    exact ⟨u, hu, firstInside_snoc.mpr (.inr ⟨rfl, hall⟩)⟩

/-- The first visit. -/
theorem start {epoch : ℕ} (hun : u < g.numBlocks) (he : i.epoch ≠ epoch) :
    VisitInv g [u] (visitNode g epoch i u) := by
  have heq : visitNode g epoch i u = ⟨place g u, place g u, 1, (loopTree g).loopOf u, false, epoch⟩ := by
    unfold visitNode visitInfo
    rw [if_pos he, blockLoopMap_place hun]
  rw [heq]
  have hmem : u ∈ (loopTree g).blocks ((loopTree g).loopOf u) := LoopTree.mem_blocks.mpr ⟨hun, .refl _⟩
  constructor
  · refine ⟨(loopTree g).loopOf_lt u hun, fun x hx => List.mem_singleton.mp hx ▸ hmem, fun D hD => ?_⟩
    exact (LoopTree.mem_blocks.mp (hD u List.mem_cons_self)).2
  · intro x hx
    obtain rfl := List.mem_singleton.mp hx
    exact spans_of_cover (k := .block x) hun rfl (Finset.mem_singleton_self x) le_rfl le_rfl
  · exact ⟨.block u, hun, rfl, rfl, u, List.mem_cons_self, Finset.mem_singleton_self u⟩
  · exact ⟨fun _ => ⟨u, rfl, [], [], rfl, nofun⟩, fun _ => rfl⟩

/-- A visit inside the common loop. -/
theorem inside {k : Item} (h : VisitInv g us i) (hun : u < g.numBlocks) (hk : k.Valid (loopTree g))
    (ho : k.owner (loopTree g) = i.lowestCommonLoop) (huk : u ∈ k.members (loopTree g)) :
    VisitInv g (us ++ [u]) (i.addRef.cover g k) := by
  have huL := Item.members_subset hk huk
  rw [ho] at huL
  constructor
  · rw [cover_lowestCommonLoop]
    exact h.common.snoc (.refl _) huL fun D hD _ => hD
  · intro x hx
    rw [cover_lowestCommonLoop, cover_first, cover_last]
    rcases List.mem_append.mp hx with hx | hx
    · exact (h.spans x hx).mono (min_le_left _ _) (le_max_left _ _)
    · exact spans_of_cover hk ho (List.mem_singleton.mp hx ▸ huk) (min_le_right _ _) (le_max_right _ _)
  · rw [cover_lowestCommonLoop, cover_last]
    rcases Nat.le_total (k.high g) i.last with hle | hle
    · obtain ⟨k', hk', ho', hhigh, x, hx, hxk⟩ := h.attained
      exact ⟨k', hk', ho', by rw [hhigh, addRef_last, max_eq_left hle], x, List.mem_append_left _ hx, hxk⟩
    · exact ⟨k, hk, ho, (max_eq_right hle).symm, u, by simp, huk⟩
  · rw [cover_lastFull, cover_last, addRef_last, addRef_lastFull]
    rcases Nat.lt_or_ge i.last (k.high g) with hlt | hle
    · rw [max_eq_right hlt.le, if_neg hlt.ne, h.moved_snoc hlt]
      cases k with
      | block y =>
        obtain rfl := Finset.mem_singleton.mp huk
        refine ⟨fun _ => ⟨rfl, fun x hx => ?_⟩, fun _ => rfl⟩
        rw [show (loopTree g).loopOf u = i.lowestCommonLoop from ho]
        exact h.common.mem x hx
      | loop c =>
        refine ⟨nofun, fun hall => ?_⟩
        have h1 := (h.common.least _ hall.2).le h.common.lt
        have h2 := (LoopTree.mem_blocks.mp huk).2.le ((loopTree g).loopOf_lt u hun)
        have h3 := (loopTree g).parent_lt c hk.2 hk.1
        rw [show (loopTree g).parent c = i.lowestCommonLoop from ho] at h3
        omega
    · rw [max_eq_left hle, if_pos rfl, h.full_snoc hun]
      exact h.full

/-- A visit outside the common loop. -/
theorem outside {N p : ℕ} {k : Item} (h : VisitInv g us i) (hun : u < g.numBlocks)
    (hk : k.Valid (loopTree g)) (ho : k.owner (loopTree g) = N)
    (huk : u ∈ k.members (loopTree g)) (hblock : k.isLoop = false → N = (loopTree g).loopOf u)
    (hloop : k.isLoop = true → N ≠ (loopTree g).loopOf u) (hp : (loopTree g).Under i.lowestCommonLoop p)
    (hp0 : p ≠ 0) (hpp : (loopTree g).parent p = N)
    (hleast : ∀ D, (loopTree g).Under i.lowestCommonLoop D → (loopTree g).Under ((loopTree g).loopOf u) D →
      (loopTree g).Under N D) :
    VisitInv g (us ++ [u]) (((i.addRef.setLoop N).cover g (.loop p)).cover g k) := by
  have hpv : (Item.loop p).Valid (loopTree g) := ⟨hp0, (hp.le h.common.lt).trans_lt h.common.lt⟩
  have huN := Item.members_subset hk huk
  rw [ho] at huN
  have hLN : (loopTree g).Under i.lowestCommonLoop N := hp.trans (hpp ▸ .parent hp0)
  have hsub : ∀ x ∈ us, x ∈ (Item.loop p).members (loopTree g) := fun x hx =>
    LoopTree.blocks_subset hp (h.common.mem x hx)
  have hlast : max i.last ((Item.loop p).high g) = (Item.loop p).high g :=
    max_eq_right (h.last_le hpv (LoopTree.blocks_subset hp))
  constructor
  · rw [cover_lowestCommonLoop, cover_lowestCommonLoop, setLoop_lowestCommonLoop]
    exact h.common.snoc hLN huN hleast
  · intro x hx
    simp only [cover_lowestCommonLoop, cover_first, cover_last, setLoop_lowestCommonLoop]
    rcases List.mem_append.mp hx with hx | hx
    · refine spans_of_cover hpv hpp (hsub x hx) ?_ ?_
      · exact (min_le_left _ _).trans (min_le_right _ _)
      · exact (le_max_right _ _).trans (le_max_left _ _)
    · exact spans_of_cover hk ho (List.mem_singleton.mp hx ▸ huk) (min_le_right _ _) (le_max_right _ _)
  · simp only [cover_lowestCommonLoop, cover_last, setLoop_lowestCommonLoop, setLoop_last, addRef_last, hlast]
    rcases Nat.le_total (k.high g) ((Item.loop p).high g) with hle | hle
    · obtain ⟨-, -, -, -, x, hx, -⟩ := h.attained
      exact ⟨.loop p, hpv, hpp, (max_eq_left hle).symm, x, List.mem_append_left _ hx, hsub x hx⟩
    · exact ⟨k, hk, ho, (max_eq_right hle).symm, u, by simp, huk⟩
  · simp only [cover_lastFull, cover_last, setLoop_last, setLoop_lastFull, addRef_last,
      addRef_lastFull, hlast]
    by_cases hmoved : i.last = max ((Item.loop p).high g) (k.high g)
    · have hph : i.last = (Item.loop p).high g := by
        have := le_max_left ((Item.loop p).high g) (k.high g)
        omega
      rw [← hmoved, if_pos hph.symm, if_pos hph, h.full_snoc hun]
      exact h.full
    · have hlt : i.last < max ((Item.loop p).high g) (k.high g) := by
        refine lt_of_le_of_ne ?_ hmoved
        exact (hlast ▸ le_max_left _ _ : i.last ≤ _).trans (le_max_left _ _)
      rw [h.moved_snoc hlt]
      have hfull2 : (Item.loop p).high g = max ((Item.loop p).high g) (k.high g) →
        i.last ≠ (Item.loop p).high g := by
        intro heq hc
        rw [← heq, hc] at hlt
        exact lt_irrefl _ hlt
      cases hkl : k.isLoop with
      | true =>
        have hnot : ¬ ∀ x ∈ us, x ∈ (loopTree g).blocks ((loopTree g).loopOf u) := by
          intro hall
          have hu' := (loopTree g).loopOf_lt u hun
          have h1 :=
            (hleast _ (h.common.least _ hall) (.refl _)).le ((hLN.le h.common.lt).trans_lt h.common.lt)
          exact hloop hkl (le_antisymm ((LoopTree.mem_blocks.mp huN).2.le hu') h1)
        refine ⟨fun hf => ?_, fun hall => absurd hall.2 hnot⟩
        by_cases h1 : (Item.loop p).high g = max ((Item.loop p).high g) (k.high g)
        · rw [if_pos h1, if_neg (hfull2 h1)] at hf
          exact nomatch hf
        · rw [if_neg h1] at hf
          exact nomatch hf
      | false =>
        obtain ⟨y, rfl⟩ : ∃ y, k = .block y := by
          cases k with
          | block y => exact ⟨y, rfl⟩
          | loop c => exact absurd hkl (by simp [Item.isLoop])
        obtain rfl := Finset.mem_singleton.mp huk
        have hup : u ∉ (Item.loop p).members (loopTree g) := fun hc =>
          nomatch Item.eq_of_mem hk hpv (ho.trans hpp.symm) huk hc
        have hne : place g u ≠ (Item.loop p).high g := by
          intro heq
          obtain ⟨z, hz, hzp⟩ := (Item.mem_iff hpv).2.2
          have hzn := (LoopTree.mem_blocks.mp (Item.members_subset hpv hz)).1
          exact hup (place_inj hun hzn (heq.trans hzp.symm) ▸ hz)
        have hhigh : (Item.block u).high g = place g u := rfl
        rw [hhigh] at hfull2 ⊢
        rcases Nat.lt_or_gt_of_ne hne with hlt' | hlt'
        · have hmax : (Item.loop p).high g = max ((Item.loop p).high g) (place g u) :=
            (max_eq_left hlt'.le).symm
          rw [if_pos hmax, if_neg (hfull2 hmax), ← hmax]
          exact ⟨nofun, fun hall => absurd hall.1 hne⟩
        · rw [max_eq_right hlt'.le, if_neg hlt'.ne]
          refine ⟨fun _ => ⟨rfl, fun x hx => ?_⟩, fun _ => rfl⟩
          rw [← hblock hkl]
          exact LoopTree.blocks_subset hLN (h.common.mem x hx)

end VisitInv

end

/-- No visit takes a loop for nested in the common loop that is deeper, but laid out before it. -/
def StraightNodes (g : RpoGraph) (us : List ℕ) : Prop :=
  ∀ pre u post, us = pre ++ u :: post → pre ≠ [] → ∀ L, IsCommon g L pre →
    (buildLayout g).loops.level L < (buildLayout g).loops.level ((loopTree g).loopOf u) →
    (buildLayout g).loops.beginOf L ≤ (buildLayout g).loops.beginOf ((loopTree g).loopOf u)

/-- **What straight visits come to**: the invariant holds after all of them. -/
theorem visits_inv {epoch : ℕ} {us : List ℕ} {i : LivenessInfo} (he : i.epoch ≠ epoch) (hne : us ≠ [])
    (hus : ∀ x ∈ us, x < g.numBlocks) (hs : StraightNodes g us) :
    VisitInv g us (us.foldl (visitNode g epoch) i) := by
  induction us using List.reverseRecOn with
  | nil => exact absurd rfl hne
  | append_singleton us u ih =>
    have hun := hus u (by simp)
    rw [List.foldl_append, List.foldl_cons, List.foldl_nil]
    by_cases hnil : us = []
    · subst hnil
      exact VisitInv.start hun he
    · have h := ih hnil (fun x hx => hus x (List.mem_append_left _ hx)) fun pre v post heq =>
        hs pre v (post ++ [u]) (by simp [heq])
      have hepoch : (us.foldl (visitNode g epoch) i).epoch = epoch := by
        obtain ⟨vs, v, rfl⟩ := List.eq_nil_or_concat us |>.resolve_left hnil
        rw [List.concat_eq_append, List.foldl_append]
        exact epoch_visitInfo _ _ _ _ _
      by_cases hin : u ∈ (loopTree g).blocks (us.foldl (visitNode g epoch) i).lowestCommonLoop
      · obtain ⟨k, hk, ho, huk, heq⟩ := visitNode_inside hepoch hin
        rw [heq]
        exact h.inside hun hk ho huk
      · obtain ⟨N, p, k, hk, ho, huk, hb, hl, hp, hp0, hpp, hleast, heq⟩ :=
          visitNode_outside hepoch h.common.lt hun hin (hs us u [] rfl hnil _ h.common)
        rw [heq]
        exact h.outside hun hk ho huk hb hl hp hp0 hpp hleast

end Tpde.Analyzer
