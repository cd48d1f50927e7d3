import Tpde.Analyzer.Layout

/-!
# The layout of the blocks of a function

`Analyzer::build_block_layout` as a whole: the block order, the loops and the
layout, read off for the blocks of an adaptor. Every loop is a range of the
layout, and no block is laid out before a dominator of it: the items of a loop
are placed in reverse post-order, and what dominates one block of a loop from
outside dominates all of it, because the loop is strongly connected.
-/

namespace Tpde.Analyzer

open FlowGraph Relation

/-! ### Dominance -/

section
variable {g : RpoGraph}

/-- The blocks of a loop reach each other inside the loop. -/
theorem blocks_connected {c x y : ℕ} (hc : c < (loopTree g).size) (hc0 : c ≠ 0)
    (hx : x ∈ (loopTree g).blocks c)
    (hy : y ∈ (loopTree g).blocks c) : ReachIn g.Edge {z | z ∈ (loopTree g).blocks c} x y := by
  obtain ⟨⟨anc, pre, hn, -⟩, -⟩ := identifyLoops_spec (g := g)
  obtain ⟨h, hh, hhead, rfl⟩ := exists_head (F := headerForest g) hc
  have h0 : h ≠ 0 := by
    rintro rfl
    exact hc0 blockLoop_zero
  rw [mem_loopTree_blocks hh hhead h0] at hx hy
  refine ReachIn.mono (fun z hz => ?_) (hn.body_connected hx hy)
  exact (mem_loopTree_blocks hh hhead h0).mpr hz

/-- What dominates a block of an item from outside dominates the item. -/
theorem dominates_item {j : Item} {a b y : ℕ} (hj : j.Valid (loopTree g)) (ha : a ∉ j.members (loopTree g))
    (hb : b ∈ j.members (loopTree g)) (hy : y ∈ j.members (loopTree g)) (h : Dominates g.Edge 0 a b) :
    Dominates g.Edge 0 a y := by
  cases j with
  | block z =>
    obtain rfl := Finset.mem_singleton.mp hb
    obtain rfl := Finset.mem_singleton.mp hy
    exact h
  | loop c =>
    refine h.of_reachIn (ReachIn.mono ?_ (blocks_connected hj.2 hj.1 hy hb))
    rintro z hz rfl
    exact ha hz

/-- A strict dominator is laid out first. -/
theorem place_lt_of_dominates {a b : ℕ} (ha : a < g.numBlocks) (hb : b < g.numBlocks) (hab : a ≠ b)
    (h : Dominates g.Edge 0 a b) : place g a < place g b := by
  obtain ⟨i, j, hi, hj, ho, hai, hbj, hij, -⟩ := Item.exists_split (T := loopTree g) ha hb hab
  have haj : a ∉ j.members (loopTree g) := fun haj => hij (Item.eq_of_mem hi hj ho hai haj)
  have hfj := Item.first_mem hj
  have hle : a ≤ j.first (loopTree g) :=
    RpoGraph.le_of_dominates (LoopTree.mem_blocks.mp (Item.members_subset hj hfj)).1
      (dominates_item hj haj hbj hfj h)
  refine place_lt hi hj ho hai hbj ((Item.first_le hai).trans_lt (lt_of_le_of_ne hle ?_))
  intro haf
  exact haj (haf ▸ hfj)

/-- In a reducible graph the head of a loop comes first. -/
theorem head_le {h x : ℕ} (hred : Reducible g.Edge 0) (hh : h < g.numBlocks)
    (hhead : (headerForest g).loopHeads h = true)
    (hx : x ∈ (loopTree g).blocks (blockLoop (headerForest g) h)) :
    h ≤ x := by
  by_cases h0 : h = 0
  · exact h0 ▸ Nat.zero_le x
  · obtain ⟨⟨anc, pre, hn, -⟩, -⟩ := identifyLoops_spec (g := g)
    obtain ⟨hxn, hc⟩ := (mem_loopTree_blocks hh hhead h0).mp hx
    by_cases hxh : h = x
    · exact hxh.le
    · obtain ⟨-, hmem⟩ := hn.naturalLoop_of_chain hred hxn hc hxh
      rcases hmem with hxh' | ⟨u, hu, hr⟩
      · exact absurd hxh'.symm hxh
      · exact RpoGraph.le_of_dominates hxn (hu.2.of_reachIn hr)

end

/-! ### The blocks of an adaptor -/

variable {B : Type}

/-- `block_layout`, `block_loop_map`, `loops`, and the two words of each block in the adaptor. -/
structure BlockLayout (B : Type) where
  blockLayout : List B
  blockLoopMap : ℕ → ℕ
  loops : LoopTable
  blockInfo : B → ℕ
  blockInfo2 : B → BlockInfo2

section
variable [DecidableEq B] (A : Cfg B)

/-- `build_block_layout`. -/
def buildBlockLayout : BlockLayout B :=
  let rpo := buildRpoBlockOrder A
  let s := buildLayout (blockGraph A)
  { blockLayout := (List.range rpo.out.length).filterMap fun p => rpo.out[s.blockLayout p]?
    blockLoopMap := s.blockLoopMap
    loops := s.loops
    blockInfo := setInfos rpo.out s.blockInfo rpo.blockInfo
    blockInfo2 := rpo.blockInfo2 }

/-- Loop `l` of the layout is `L`, or has it among its parents. -/
def BlockLayout.Under (L : BlockLayout B) : ℕ → ℕ → Prop :=
  ReflTransGen fun a b => a ≠ 0 ∧ L.loops.parent a = b

/-- `b` is the head of loop `L`: `identify_loops` has it for a head, and the loop was made for it. -/
def IsLoopHead (L : ℕ) (b : B) : Prop :=
  b ∈ (buildRpoBlockOrder A).out ∧
    (headerForest (blockGraph A)).loopHeads ((buildRpoBlockOrder A).blockInfo b) = true ∧
    blockLoop (headerForest (blockGraph A)) ((buildRpoBlockOrder A).blockInfo b) = L

instance (L : ℕ) (b : B) : Decidable (IsLoopHead A L b) := inferInstanceAs (Decidable (_ ∧ _ ∧ _))

variable {A}

theorem blockInfo_eq_place {b : B} (hb : b ∈ (buildRpoBlockOrder A).out) :
    (buildBlockLayout A).blockInfo b = place (blockGraph A) ((buildRpoBlockOrder A).blockInfo b) :=
  setInfos_getElem? buildRpoBlockOrder_spec.2.1.nodup _ (getElem?_blockInfo hb)

/-- The block at a place. -/
theorem blockLayout_getElem? {p : ℕ} (hp : p < (blockGraph A).numBlocks) :
    (buildBlockLayout A).blockLayout[p]? = some (blockAt A ((buildLayout (blockGraph A)).blockLayout p)) := by
  have hmem : ∀ q, q < (blockGraph A).numBlocks →
      (buildRpoBlockOrder A).out[(buildLayout (blockGraph A)).blockLayout q]? =
        some (blockAt A ((buildLayout (blockGraph A)).blockLayout q)) := by
    intro q hq
    obtain ⟨x, hx, rfl⟩ := exists_place hq
    rw [blockLayout_place hx]
    exact blockAt_mem hx
  have hmap : (buildBlockLayout A).blockLayout =
      (List.range (blockGraph A).numBlocks).map fun q =>
        blockAt A ((buildLayout (blockGraph A)).blockLayout q) := by
    rw [← List.filterMap_eq_map]
    exact List.filterMap_congr fun q hq => hmem q (List.mem_range.mp hq)
  simp [hmap, hp]

theorem blockLayout_length : (buildBlockLayout A).blockLayout.length = (blockGraph A).numBlocks := by
  have hlen : ∀ p, p < (buildBlockLayout A).blockLayout.length ↔ p < (blockGraph A).numBlocks := by
    intro p
    constructor
    · intro hp
      have hle := List.length_filterMap_le
        (fun p => (buildRpoBlockOrder A).out[(buildLayout (blockGraph A)).blockLayout p]?)
        (List.range (buildRpoBlockOrder A).out.length)
      rw [List.length_range] at hle
      exact hp.trans_le hle
    · intro hp
      exact (List.getElem?_eq_some_iff.mp (blockLayout_getElem? hp)).1
  have h1 := hlen (buildBlockLayout A).blockLayout.length
  have h2 := hlen (blockGraph A).numBlocks
  omega

theorem mem_out_iff {b : B} : b ∈ (buildRpoBlockOrder A).out ↔ Reach A.Edge A.curEntryBlock b :=
  buildRpoBlockOrder_spec.1 b

/-- Every reachable block stands at its place. -/
theorem blockLayout_blockInfo {b : B} (hb : b ∈ (buildRpoBlockOrder A).out) :
    (buildBlockLayout A).blockLayout[(buildBlockLayout A).blockInfo b]? = some b := by
  have hlt := blockInfo_lt hb
  rw [blockInfo_eq_place hb, blockLayout_getElem? (place_lt_numBlocks hlt), blockLayout_place hlt,
    blockAt_blockInfo hb]

theorem blockInfo_of_getElem? {p : ℕ} {b : B} (h : (buildBlockLayout A).blockLayout[p]? = some b) :
    b ∈ (buildRpoBlockOrder A).out ∧ (buildBlockLayout A).blockInfo b = p := by
  have hp : p < (blockGraph A).numBlocks := blockLayout_length (A := A) ▸ (List.getElem?_eq_some_iff.mp h).1
  obtain ⟨x, hx, rfl⟩ := exists_place hp
  rw [blockLayout_getElem? hp, blockLayout_place hx, Option.some_inj] at h
  subst h
  have hm := List.mem_of_getElem? (blockAt_mem hx)
  exact ⟨hm, by rw [blockInfo_eq_place hm, blockInfo_blockAt hx]⟩

/-- The layout is a permutation of the reachable blocks that starts with the entry. -/
theorem blockLayout_perm : (buildBlockLayout A).blockLayout.Perm (buildRpoBlockOrder A).out ∧
    (buildBlockLayout A).blockLayout.head? = some A.curEntryBlock := by
  constructor
  · refine (List.perm_ext_iff_of_nodup ?_ buildRpoBlockOrder_spec.2.1.nodup).mpr fun b =>
      ⟨fun hb => ?_, fun hb => ?_⟩
    · refine List.nodup_iff_getElem?_ne_getElem?.mpr fun p q hpq hq heq => ?_
      obtain ⟨b, hb⟩ : ∃ b, (buildBlockLayout A).blockLayout[q]? = some b := ⟨_, List.getElem?_eq_getElem hq⟩
      have hp := (blockInfo_of_getElem? (heq.trans hb)).2
      exact hpq.ne (hp.symm.trans (blockInfo_of_getElem? hb).2)
    · obtain ⟨p, hp⟩ := List.mem_iff_getElem?.mp hb
      exact (blockInfo_of_getElem? hp).1
    · exact List.mem_of_getElem? (blockLayout_blockInfo hb)
  · have h0 := blockLayout_blockInfo (A := A) (List.mem_of_getElem? buildRpoBlockOrder_head)
    rw [blockInfo_eq_place (List.mem_of_getElem? buildRpoBlockOrder_head), blockInfo_entry, place_zero] at h0
    rw [List.head?_eq_getElem?, h0]

theorem loops_frame : (buildBlockLayout A).loops.size = (loopTree (blockGraph A)).size ∧
    (buildBlockLayout A).loops.parent = (loopTree (blockGraph A)).parent ∧
    (buildBlockLayout A).loops.level = (loopTable (headerForest (blockGraph A))).level := by
  have h := (buildLayout_inv (g := blockGraph A)).layout
  exact ⟨h.size_eq, h.parent_eq, layoutBlocks_level _ _ _⟩

theorem under_iff {l L : ℕ} : (buildBlockLayout A).Under l L ↔ (loopTree (blockGraph A)).Under l L := by
  rw [BlockLayout.Under, loops_frame.2.1]
  rfl

/-- The range of a loop: as many blocks as it has, and those that have it among their loops. -/
theorem loop_range_iff {L : ℕ} (hL : L < (buildBlockLayout A).loops.size) :
    ∃ b, (buildBlockLayout A).loops.beginIdx L = some b ∧
      (buildBlockLayout A).loops.endIdx L = b + (buildBlockLayout A).loops.numBlocks L ∧
      0 < (buildBlockLayout A).loops.numBlocks L ∧
      (buildBlockLayout A).loops.endIdx L ≤ (buildBlockLayout A).blockLayout.length ∧
      ∀ p < (buildBlockLayout A).blockLayout.length, (b ≤ p ∧ p < (buildBlockLayout A).loops.endIdx L) ↔
        (buildBlockLayout A).Under ((buildBlockLayout A).blockLoopMap p) L := by
  rw [loops_frame.1] at hL
  obtain ⟨b, hb, hend, hnum, -⟩ := loop_range hL
  have hpos := Finset.card_pos.mpr (LoopTree.blocks_nonempty hL)
  have hiff : ∀ p < (blockGraph A).numBlocks, (b ≤ p ∧ p < b + ((loopTree (blockGraph A)).blocks L).card) ↔
      (loopTree (blockGraph A)).Under ((buildLayout (blockGraph A)).blockLoopMap p) L := by
    intro p hp
    obtain ⟨x, hx, rfl⟩ := exists_place hp
    rw [← mem_blocks_iff_place hL hb hx, LoopTree.mem_blocks, blockLoopMap_place hx]
    exact and_iff_right hx
  refine ⟨b, hb, hend.trans (congrArg _ hnum.symm), hnum ▸ hpos, ?_, fun p hp => ?_⟩
  · -- the last block of the loop stands at the end of its range
    have hinj : Set.InjOn (place (blockGraph A)) ((loopTree (blockGraph A)).blocks L) := fun y hy z hz hyz =>
      place_inj (LoopTree.mem_blocks.mp hy).1 (LoopTree.mem_blocks.mp hz).1 hyz
    obtain ⟨b', hb', -, -, hmem⟩ := loop_range hL
    obtain rfl : b = b' := Option.some_injective _ (hb.symm.trans hb')
    have hsub : ((loopTree (blockGraph A)).blocks L).image (place (blockGraph A)) ⊆
        Finset.Ico b (blockGraph A).numBlocks := by
      intro p hp
      obtain ⟨y, hy, rfl⟩ := Finset.mem_image.mp hp
      exact Finset.mem_Ico.mpr ⟨(hmem y hy).1, place_lt_numBlocks (LoopTree.mem_blocks.mp hy).1⟩
    have hcard := Finset.card_le_card hsub
    rw [Finset.card_image_of_injOn hinj, Nat.card_Ico] at hcard
    have hend' : (buildBlockLayout A).loops.endIdx L = b + ((loopTree (blockGraph A)).blocks L).card := hend
    rw [blockLayout_length, hend']
    omega
  · rw [blockLayout_length] at hp
    have hend' : (buildBlockLayout A).loops.endIdx L = b + ((loopTree (blockGraph A)).blocks L).card := hend
    rw [hend', hiff p hp, under_iff]
    rfl

/-- The head of a loop comes first in the layout of the loop exactly when it comes first in reverse
post-order. -/
theorem begin_head_iff {L : ℕ} {h : B} (hh : IsLoopHead A L h) :
    (buildBlockLayout A).loops.beginIdx L = some ((buildBlockLayout A).blockInfo h) ↔
      ∀ x ∈ (loopTree (blockGraph A)).blocks L, (buildRpoBlockOrder A).blockInfo h ≤ x := by
  obtain ⟨hm, hhead, rfl⟩ := hh
  have hlt := blockInfo_lt hm
  have hL := (loopTree (blockGraph A)).loopOf_lt _ hlt
  have hmem : (buildRpoBlockOrder A).blockInfo h ∈
      (loopTree (blockGraph A)).blocks
        (blockLoop (headerForest (blockGraph A)) ((buildRpoBlockOrder A).blockInfo h)) :=
    LoopTree.mem_blocks.mpr ⟨hlt, .refl _⟩
  rw [blockInfo_eq_place hm]
  constructor
  · intro hb x hx
    -- the first block in reverse post-order is at the same place
    have hfirst : sInf {x | x ∈ (loopTree (blockGraph A)).blocks (blockLoop (headerForest (blockGraph A))
        ((buildRpoBlockOrder A).blockInfo h))} ∈ _ := Nat.sInf_mem ⟨_, hmem⟩
    have hb' := begin_eq_place hL hfirst fun y hy => Nat.sInf_le hy
    have heq := place_inj hlt (LoopTree.mem_blocks.mp hfirst).1 (Option.some_injective _ (hb.symm.trans hb'))
    exact heq.le.trans (Nat.sInf_le hx)
  · exact fun hmin => begin_eq_place hL hmem hmin

/-- A cycle without back edges among the numbers is one among the blocks. -/
theorem reducible_blockGraph (h : Reducible A.Edge A.curEntryBlock) : Reducible (blockGraph A).Edge 0 := by
  have hstep : ∀ i j, (blockGraph A).Edge i j ∧ ¬ BackEdge (blockGraph A).Edge 0 i j →
      A.Edge (blockAt A i) (blockAt A j) ∧ ¬ BackEdge A.Edge A.curEntryBlock (blockAt A i) (blockAt A j) := by
    rintro i j ⟨he, hb⟩
    have hi := RpoGraph.Edge.lt_left he
    have hj := RpoGraph.Edge.lt_right he
    refine ⟨edge_blockAt he, fun hb' => hb ⟨he, ?_⟩⟩
    have hdom := dominates_blockInfo (List.mem_of_getElem? (blockAt_mem hj))
      (List.mem_of_getElem? (blockAt_mem hi)) hb'.2
    rwa [blockInfo_blockAt hi, blockInfo_blockAt hj] at hdom
  intro x hx
  exact h (blockAt A x) (hx.lift (blockAt A) hstep)

/-- The ranges of two loops are nested or disjoint. -/
theorem ranges_nested {l m b c : ℕ} (hl : l < (buildBlockLayout A).loops.size)
    (hm : m < (buildBlockLayout A).loops.size) (hb : (buildBlockLayout A).loops.beginIdx l = some b)
    (hc : (buildBlockLayout A).loops.beginIdx m = some c) :
    (buildBlockLayout A).loops.endIdx l ≤ c ∨ (buildBlockLayout A).loops.endIdx m ≤ b ∨
      (b ≤ c ∧ (buildBlockLayout A).loops.endIdx m ≤ (buildBlockLayout A).loops.endIdx l) ∨
      (c ≤ b ∧ (buildBlockLayout A).loops.endIdx l ≤ (buildBlockLayout A).loops.endIdx m) := by
  -- a loop inside another has its range inside
  have key : ∀ l m b c, l < (buildBlockLayout A).loops.size → m < (buildBlockLayout A).loops.size →
      (buildBlockLayout A).loops.beginIdx l = some b → (buildBlockLayout A).loops.beginIdx m = some c →
      (buildBlockLayout A).Under l m →
      c ≤ b ∧ (buildBlockLayout A).loops.endIdx l ≤ (buildBlockLayout A).loops.endIdx m := by
    intro l m b c hl hm hb hc hlm
    obtain ⟨b', hb', hend, hpos, hlen, hiff⟩ := loop_range_iff hl
    obtain ⟨c', hc', -, -, -, hiff'⟩ := loop_range_iff hm
    obtain rfl : b = b' := Option.some_injective _ (hb.symm.trans hb')
    obtain rfl : c = c' := Option.some_injective _ (hc.symm.trans hc')
    have hin : ∀ p, b ≤ p → p < (buildBlockLayout A).loops.endIdx l →
        c ≤ p ∧ p < (buildBlockLayout A).loops.endIdx m := fun p hp hp' =>
      (hiff' p (hp'.trans_le hlen)).mpr (((hiff p (hp'.trans_le hlen)).mp ⟨hp, hp'⟩).trans hlm)
    have hfirst := hin b le_rfl (by omega)
    have hlast := hin ((buildBlockLayout A).loops.endIdx l - 1) (by omega) (by omega)
    omega
  obtain ⟨b', hb', hend, hpos, hlen, hiff⟩ := loop_range_iff hl
  obtain ⟨c', hc', hend', hpos', hlen', hiff'⟩ := loop_range_iff hm
  obtain rfl : b = b' := Option.some_injective _ (hb.symm.trans hb')
  obtain rfl : c = c' := Option.some_injective _ (hc.symm.trans hc')
  by_cases hdisj : (buildBlockLayout A).loops.endIdx l ≤ c ∨ (buildBlockLayout A).loops.endIdx m ≤ b
  · exact hdisj.imp_right .inl
  · rw [not_or] at hdisj
    have hp : max b c < (buildBlockLayout A).blockLayout.length := by omega
    have h1 := (hiff (max b c) hp).mp (by omega)
    have h2 := (hiff' (max b c) hp).mp (by omega)
    refine .inr (.inr ?_)
    rw [under_iff] at h1 h2
    rcases h1.total h2 with h | h
    · exact .inr (key l m b c hl hm hb hc (under_iff.mpr h))
    · exact .inl (key m l c b hm hl hc hb (under_iff.mpr h))

end

/-- What a layout with contiguous loops is. -/
structure Contiguous [DecidableEq B] (A : Cfg B) (L : BlockLayout B) : Prop where
  nodup : L.blockLayout.Nodup
  mem_iff : ∀ b, b ∈ L.blockLayout ↔ Reach A.Edge A.curEntryBlock b
  entry_first : L.blockLayout.head? = some A.curEntryBlock
  blockInfo : ∀ p b, L.blockLayout[p]? = some b → L.blockInfo b = p
  /-- The loops are a tree that is numbered from its root, loop 0. -/
  root : 0 < L.loops.size ∧ L.loops.parent 0 = 0 ∧ L.loops.level 0 = 0
  parent : ∀ l < L.loops.size, l ≠ 0 → L.loops.parent l < l ∧
    L.loops.level l = L.loops.level (L.loops.parent l) + 1
  blockLoopMap : ∀ p < L.blockLayout.length, L.blockLoopMap p < L.loops.size
  /-- The blocks in the range of a loop are as many as it has, and those that have it among their loops. -/
  range : ∀ l < L.loops.size, ∃ b, L.loops.beginIdx l = some b ∧ L.loops.endIdx l = b + L.loops.numBlocks l ∧
    L.loops.endIdx l ≤ L.blockLayout.length ∧
    ∀ p < L.blockLayout.length, (b ≤ p ∧ p < L.loops.endIdx l) ↔ L.Under (L.blockLoopMap p) l
  nested : ∀ l < L.loops.size, ∀ m < L.loops.size, ∀ b c, L.loops.beginIdx l = some b →
    L.loops.beginIdx m = some c →
    L.loops.endIdx l ≤ c ∨ L.loops.endIdx m ≤ b ∨ (b ≤ c ∧ L.loops.endIdx m ≤ L.loops.endIdx l) ∨
      (c ≤ b ∧ L.loops.endIdx l ≤ L.loops.endIdx m)
  head : ∀ l < L.loops.size, ∃! h, IsLoopHead A l h

/-- **The layout is contiguous**: every loop is a range of the layout. It begins with its head exactly
when the head comes first of the loop in reverse post-order, as it does in a reducible graph. -/
theorem buildBlockLayout_contiguous [DecidableEq B] (A : Cfg B) :
    Contiguous A (buildBlockLayout A) ∧
    (∀ l h, IsLoopHead A l h →
      ((buildBlockLayout A).loops.beginIdx l = some ((buildBlockLayout A).blockInfo h) ↔
        ∀ b ∈ (buildBlockLayout A).blockLayout,
          (buildBlockLayout A).Under
            ((buildBlockLayout A).blockLoopMap ((buildBlockLayout A).blockInfo b)) l →
            (buildRpoBlockOrder A).blockInfo h ≤ (buildRpoBlockOrder A).blockInfo b)) ∧
    (Reducible A.Edge A.curEntryBlock → ∀ l h, IsLoopHead A l h →
      (buildBlockLayout A).loops.beginIdx l = some ((buildBlockLayout A).blockInfo h)) := by
  obtain ⟨hsize, hparent, hlevel⟩ := loops_frame (A := A)
  obtain ⟨-, hp, -, -, hp0, hl0, hlev⟩ := loopTable_spec (F := headerForest (blockGraph A))
  have hmap : ∀ b ∈ (buildRpoBlockOrder A).out,
      (buildBlockLayout A).blockLoopMap ((buildBlockLayout A).blockInfo b) =
        (loopTree (blockGraph A)).loopOf ((buildRpoBlockOrder A).blockInfo b) := fun b hb => by
    rw [blockInfo_eq_place hb]
    exact blockLoopMap_place (blockInfo_lt hb)
  refine ⟨?_, fun l h hh => ?_, fun hred l h hh => ?_⟩
  · constructor
    · exact blockLayout_perm.1.nodup_iff.mpr buildRpoBlockOrder_spec.2.1.nodup
    · exact fun b => blockLayout_perm.1.mem_iff.trans mem_out_iff
    · exact blockLayout_perm.2
    · exact fun p b hpb => (blockInfo_of_getElem? hpb).2
    · rw [hparent, hlevel, hsize]
      exact ⟨LoopTree.size_pos, hp ▸ hp0, hl0⟩
    · intro l hl h0
      rw [hsize] at hl
      rw [hparent, hlevel]
      exact ⟨(loopTree (blockGraph A)).parent_lt l hl h0, hp ▸ hlev l hl h0⟩
    · intro p hp
      rw [blockLayout_length] at hp
      obtain ⟨x, hx, rfl⟩ := exists_place hp
      rw [hsize]
      exact (blockLoopMap_place hx).trans_lt ((loopTree (blockGraph A)).loopOf_lt x hx)
    · intro l hl
      obtain ⟨b, h1, h2, -, h3, h4⟩ := loop_range_iff hl
      exact ⟨b, h1, h2, h3, h4⟩
    · exact fun l hl m hm b c hb hc => ranges_nested hl hm hb hc
    · intro l hl
      rw [hsize] at hl
      obtain ⟨x, hx, hhead, hxl⟩ := exists_head (F := headerForest (blockGraph A)) hl
      have hxm := List.mem_of_getElem? (blockAt_mem hx)
      refine ⟨blockAt A x, ⟨hxm, ?_, ?_⟩, ?_⟩
      · rw [blockInfo_blockAt hx]
        exact hhead
      · rw [blockInfo_blockAt hx]
        exact hxl
      · rintro b ⟨hb, hbhead, hbl⟩
        rw [← head_unique (blockInfo_lt hb) hx hbhead hhead (hbl.trans hxl.symm), blockAt_blockInfo hb]
  · rw [begin_head_iff hh]
    constructor
    · intro hmin b hb hu
      have hbm := blockLayout_perm.1.mem_iff.mp hb
      rw [hmap b hbm, under_iff] at hu
      exact hmin _ (LoopTree.mem_blocks.mpr ⟨blockInfo_lt hbm, hu⟩)
    · intro hmin x hx
      obtain ⟨hxn, hu⟩ := LoopTree.mem_blocks.mp hx
      have hxm := List.mem_of_getElem? (blockAt_mem hxn)
      have := hmin (blockAt A x) (blockLayout_perm.1.mem_iff.mpr hxm)
      rw [hmap _ hxm, blockInfo_blockAt hxn, under_iff] at this
      exact this hu
  · refine (begin_head_iff hh).mpr fun x hx => ?_
    obtain ⟨hm, hhead, rfl⟩ := hh
    exact head_le (reducible_blockGraph hred) (blockInfo_lt hm) hhead hx

/-- A loop with two entries: block 1 is found to be its head, and block 3 comes first. -/
def irreducibleLoop : Cfg ℕ where
  curBlocks := [0, 1, 2, 3]
  curEntryBlock := 0
  blockSuccs b := match b with
    | 0 => [1, 3]
    | 1 => [3, 2]
    | 2 => [1]
    | 3 => [2]
    | _ => []
  nodup := by decide
  entry_first := rfl
  succs_mem := by decide
  entry_no_pred := by decide

instance (b c : ℕ) : Decidable (irreducibleLoop.Edge b c) := inferInstanceAs (Decidable (_ ∈ _))

/-- A loop with two entries need not begin with its head. -/
theorem begin_ne_head : ¬ ∀ (A : Cfg ℕ), ∀ l < (buildBlockLayout A).loops.size, ∀ h, IsLoopHead A l h →
    (buildBlockLayout A).loops.beginIdx l = some ((buildBlockLayout A).blockInfo h) := by
  intro hall
  exact absurd (hall irreducibleLoop 1 (by decide +kernel) 1 (by decide +kernel)) (by decide +kernel)

/-- At the loop with two entries: it has one head. -/
theorem buildBlockLayout_contiguous_irreducibleLoop :
    (buildBlockLayout irreducibleLoop).loops.beginIdx 1 = some 1 ∧ ∃! h, IsLoopHead irreducibleLoop 1 h :=
  ⟨by decide +kernel, (buildBlockLayout_contiguous irreducibleLoop).1.head 1 (by decide +kernel)⟩

/-- **The layout respects dominance**: a dominator is not laid out later, and a block with one
predecessor is laid out after it. -/
theorem buildBlockLayout_dominance [DecidableEq B] (A : Cfg B) :
    (∀ a b, Reach A.Edge A.curEntryBlock a → Reach A.Edge A.curEntryBlock b →
      Dominates A.Edge A.curEntryBlock a b →
        (buildBlockLayout A).blockInfo a ≤ (buildBlockLayout A).blockInfo b) ∧
    ∀ p b, Reach A.Edge A.curEntryBlock p → A.Edge p b →
      (∀ q, Reach A.Edge A.curEntryBlock q → A.Edge q b → q = p) →
      (buildBlockLayout A).blockInfo p < (buildBlockLayout A).blockInfo b := by
  constructor
  · intro a b ha hb hdom
    rw [← mem_out_iff] at ha hb
    rw [blockInfo_eq_place ha, blockInfo_eq_place hb]
    by_cases hab : (buildRpoBlockOrder A).blockInfo a = (buildRpoBlockOrder A).blockInfo b
    · rw [hab]
    · exact (place_lt_of_dominates (blockInfo_lt ha) (blockInfo_lt hb) hab
        (dominates_blockInfo ha hb hdom)).le
  · intro p b hp he huniq
    rw [← mem_out_iff] at hp
    have hb := out_succ hp he
    rw [blockInfo_eq_place hp, blockInfo_eq_place hb]
    have hpred : ∀ q, (blockGraph A).Edge q ((buildRpoBlockOrder A).blockInfo b) →
        q = (buildRpoBlockOrder A).blockInfo p := by
      intro q hq
      have hqn := RpoGraph.Edge.lt_left hq
      have hqm := List.mem_of_getElem? (blockAt_mem hqn)
      have hqe := edge_blockAt hq
      rw [blockAt_blockInfo hb] at hqe
      rw [← huniq _ (mem_out_iff.mp hqm) hqe, blockInfo_blockAt hqn]
    have hb0 : (buildRpoBlockOrder A).blockInfo b ≠ 0 := RpoGraph.Edge.ne_zero (edge_blockInfo hp he)
    obtain ⟨q, hq, hqe⟩ := (blockGraph A).pred _ (blockInfo_lt hb) hb0
    refine place_lt_of_dominates (blockInfo_lt hp) (blockInfo_lt hb) ?_ (dominates_of_pred hb0 hpred)
    exact hpred q hqe ▸ hq.ne

/-- The same loop behind a block of its own. -/
def lateLoop : Cfg ℕ where
  curBlocks := [0, 1, 2, 3]
  curEntryBlock := 0
  blockSuccs b := match b with
    | 0 => [1]
    | 1 => [2, 3]
    | 2 => [3]
    | 3 => [2]
    | _ => []
  nodup := by decide
  entry_first := rfl
  succs_mem := by decide
  entry_no_pred := by decide

instance (b c : ℕ) : Decidable (lateLoop.Edge b c) := inferInstanceAs (Decidable (_ ∈ _))

/-- At this loop: the block in front of it dominates both of its blocks, and the entry is that block's
one predecessor. -/
theorem buildBlockLayout_dominance_lateLoop :
    (buildBlockLayout lateLoop).blockInfo 1 ≤ (buildBlockLayout lateLoop).blockInfo 3 ∧
      (buildBlockLayout lateLoop).blockInfo 0 < (buildBlockLayout lateLoop).blockInfo 1 := by
  have hfirst : lateLoop.Edge 0 1 := by decide
  have hsecond : lateLoop.Edge 1 3 := by decide
  have hreach : Reach lateLoop.Edge lateLoop.curEntryBlock 1 := .single hfirst
  refine ⟨(buildBlockLayout_dominance lateLoop).1 1 3 hreach (hreach.tail hsecond) fun p hp => ?_,
    (buildBlockLayout_dominance lateLoop).2 0 1 .refl hfirst fun q _ hq => ?_⟩
  · obtain _ | ⟨he, hp⟩ := hp
    obtain rfl := List.mem_singleton.mp he
    cases hp
    exact List.mem_cons_of_mem _ List.mem_cons_self
  · match q, hq with
    | 0, _ => rfl
    | 1, hq | 2, hq | 3, hq => exact absurd hq (by decide)
    | _ + 4, hq => exact absurd hq List.not_mem_nil

end Tpde.Analyzer
