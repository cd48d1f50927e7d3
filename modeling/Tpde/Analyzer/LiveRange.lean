import Tpde.Analyzer.BlockLayout

/-!
# Live ranges in the layout

Where a value can be live in terms of the loops and their items, for a value
that is defined in block `d`: what reaches a use without passing `d` stays in
every loop that has the definition and the use in it (`mem_blocks_of_reachIn`),
and goes through the items of such a loop in the order of the layout
(`item_lt_of_reachIn`). A way that turned back would close a cycle, and with it
a loop without `d`, which is inside one item.
-/

namespace Tpde.Analyzer

open FlowGraph PointerForest Relation

variable {g : RpoGraph} {d : ℕ}

/-- A way to a use that avoids the definition stays behind it. -/
theorem reachIn_above {y u : ℕ} (hdom : Dominates g.Edge 0 d u) (hy : y < g.numBlocks)
    (hr : ReachIn g.Edge {z | z ≠ d} y u) : ReachIn g.Edge {z | d < z ∧ z < g.numBlocks} y u := by
  have hin :=
    (hdom.reachIn_dominated hr).inter (T := g.Blocks) (fun a b _ he _ _ => RpoGraph.Edge.lt_right he) hy
  refine ReachIn.mono ?_ hin.1
  rintro z ⟨⟨hzd, hz⟩, hzn⟩
  exact ⟨lt_of_le_of_ne (RpoGraph.le_of_dominates hzn hz) (Ne.symm hzd), hzn⟩

theorem above_subset : ({z | d < z ∧ z < g.numBlocks} : Set ℕ) ⊆ {z | z ≠ d} := fun _ hz => Nat.ne_of_gt hz.1

/-- A way to a use that avoids the definition stays in the loops around both. -/
theorem mem_blocks_of_reachIn {L y u : ℕ} (hL : L < (loopTree g).size) (hd : d ∈ (loopTree g).blocks L)
    (hu : u ∈ (loopTree g).blocks L) (hdom : Dominates g.Edge 0 d u) (hy : y < g.numBlocks)
    (hr : ReachIn g.Edge {z | z ≠ d} y u) : y ∈ (loopTree g).blocks L := by
  by_cases hL0 : L = 0
  · subst hL0
    exact LoopTree.mem_blocks.mpr ⟨hy, LoopTree.under_zero ((loopTree g).loopOf_lt y hy)⟩
  obtain ⟨⟨anc, pre, hn, -⟩, -⟩ := identifyLoops_spec (g := g)
  obtain ⟨h, hh, hhead, rfl⟩ := exists_head (F := headerForest g) hL
  have h0 : h ≠ 0 := by
    rintro rfl
    exact hL0 blockLoop_zero
  rw [mem_loopTree_blocks hh hhead h0] at hd hu ⊢
  have hr' := hdom.reachIn_dominated hr
  refine (hr'.inter_back (T := loopBody g h) (fun x z hz he hx _ => ?_) hu).2
  -- `d` is above `x` in the search tree, and the head above `d`
  have hxn := RpoGraph.Edge.lt_left he
  have hdx := hn.tree.mem_of_dominates hxn hx.2
  exact hn.mem_of_edge hxn (hn.tree.trans hxn hdx (hn.mem_anc hd.1 hd.2).1) he hz

/-- A cycle behind `d` lies in a loop without `d`. -/
theorem exists_loop_of_cycle {x y : ℕ} (hx : Dominates g.Edge 0 d x) (hxd : d < x) (hxn : x < g.numBlocks)
    (hxy : ReachIn g.Edge {z | d < z ∧ z < g.numBlocks} x y)
    (hyx : ReachIn g.Edge {z | d < z ∧ z < g.numBlocks} y x) (hne : x ≠ y ∨ g.Edge x x) :
    ∃ c < (loopTree g).size, x ∈ (loopTree g).blocks c ∧ y ∈ (loopTree g).blocks c ∧
      d ∉ (loopTree g).blocks c := by
  obtain ⟨⟨anc, pre, hn, ho⟩, hheads, -⟩ := identifyLoops_spec (g := g)
  obtain ⟨a, haS, hxa, hax, hmem⟩ := hn.exists_body_of_cycle ho (S := {z | d < z ∧ z < g.numBlocks})
    (fun z hz => hz.2) (x := x) ⟨hxd, hxn⟩
  have hxB := hmem x (.refl _ _) (.refl _ _)
  have hyB := hmem y hxy hyx
  have ha0 : a ≠ 0 := Nat.ne_of_gt ((Nat.zero_le d).trans_lt haS.1)
  have hhead : (identifyLoops g).loopHeads a = true := by
    rw [hheads]
    have hchain : ∀ z, z ∈ Body 0 (identifyLoops g).loopParent g.Blocks a → a ≠ z →
        ∃ i < g.numBlocks, (identifyLoops g).loopParent i = a := by
      intro z hz haz
      rcases ReflTransGen.cases_tail hz.2 with rfl | ⟨i, hzi, hia, -⟩
      · exact absurd rfl haz
      · exact ⟨i, (hn.mem_anc hz.1 hzi).2, hia⟩
    by_cases hax : a = x
    · rcases hne with hne | hself
      · exact .inl ⟨ha0, hchain y hyB (hax ▸ hne)⟩
      · exact .inr (hax ▸ hself)
    · exact .inl ⟨ha0, hchain x hxB hax⟩
  have hhead' : (headerForest g).loopHeads a = true := (Function.update_of_ne ha0 ..).trans hhead
  refine ⟨blockLoop (headerForest g) a, (loopTree g).loopOf_lt a haS.2, ?_, ?_, ?_⟩
  · exact (mem_loopTree_blocks haS.2 hhead' ha0).mpr hxB
  · exact (mem_loopTree_blocks haS.2 hhead' ha0).mpr hyB
  · rw [mem_loopTree_blocks haS.2 hhead' ha0]
    intro hdB
    -- the head would be above `d` and below it
    have hda := hn.tree.mem_of_dominates haS.2 (hx.of_reachIn (hax.mono above_subset))
    exact haS.1.ne (hn.tree.antisymm haS.2 hda (hn.mem_anc hdB.1 hdB.2).1)

/-- A way to a use that avoids the definition goes through the items of a loop around both in order. -/
theorem item_lt_of_reachIn {L y u : ℕ} {i j : Item} (hL : L < (loopTree g).size)
    (hd : d ∈ (loopTree g).blocks L) (hi : i.Valid (loopTree g)) (hj : j.Valid (loopTree g))
    (hiL : i.owner (loopTree g) = L) (hjL : j.owner (loopTree g) = L) (hyi : y ∈ i.members (loopTree g))
    (huj : u ∈ j.members (loopTree g)) (hdom : Dominates g.Edge 0 d u) (hud : u ≠ d)
    (hr : ReachIn g.Edge {z | z ≠ d} y u) : i = j ∨ i.first (loopTree g) < j.first (loopTree g) := by
  have hblocks : ∀ {k : Item} {z : ℕ}, k.Valid (loopTree g) → z ∈ k.members (loopTree g) → z < g.numBlocks :=
    fun hk hz => (LoopTree.mem_blocks.mp (Item.members_subset hk hz)).1
  by_cases hij : i = j
  · exact .inl hij
  refine .inr ?_
  have hdj : d ∉ j.members (loopTree g) := by
    intro hdj
    cases j with
    | block x => exact hud ((Finset.mem_singleton.mp huj).trans (Finset.mem_singleton.mp hdj).symm)
    | loop c =>
      have hyc := mem_blocks_of_reachIn hj.2 hdj huj hdom (hblocks hi hyi) hr
      exact hij (Item.eq_of_mem hi hj (hiL.trans hjL.symm) hyi hyc)
  have hmj := Item.first_mem hj
  have hmdom := dominates_item hj hdj huj hmj hdom
  -- on to the first block of the item of the use
  have hum : ReachIn g.Edge {z | z ≠ d} u (j.first (loopTree g)) := by
    cases j with
    | block x =>
      rw [Finset.mem_singleton.mp huj, Finset.mem_singleton.mp hmj]
      exact .refl _ _
    | loop c =>
      refine ReachIn.mono ?_ (blocks_connected hj.2 hj.1 huj hmj)
      rintro z hz rfl
      exact hdj hz
  by_contra hge
  have hlt : j.first (loopTree g) < i.first (loopTree g) := by
    refine lt_of_le_of_ne (Nat.not_lt.mp hge) fun heq => hij ?_
    exact Item.eq_of_mem hi hj (hiL.trans hjL.symm) (heq ▸ Item.first_mem hi) hmj
  have hlast := reachIn_above hmdom (hblocks hi hyi) (hr.trans hum)
  -- from the item of `y` the way cannot get below it
  have key : ∀ y, y ∈ i.members (loopTree g) →
      ¬ ReachIn g.Edge {z | d < z ∧ z < g.numBlocks} y (j.first (loopTree g)) := by
    intro y
    induction y using Nat.strong_induction_on with
    | _ y ih =>
      intro hyi hyr
      have hym : j.first (loopTree g) < y := hlt.trans_le (Item.first_le hyi)
      obtain ⟨v, he, hyS, hvS, hvr⟩ := hyr.cases_first hym.ne'
      obtain ⟨w, hwS, hwy, hyw, hwy'⟩ := RpoGraph.exists_cycle he hyS hvS hvr hym
      have hback : ReachIn g.Edge {z | d < z ∧ z < g.numBlocks} w y := by
        have hin := hwy'.inter (T := g.Blocks) (fun a b _ he _ _ => RpoGraph.Edge.lt_right he) hwS.2
        refine ReachIn.mono ?_ hin.1
        exact fun z hz => ⟨hwS.1.trans_le hz.1, hz.2⟩
      obtain ⟨c, hc, hyc, hwc, hdc⟩ := exists_loop_of_cycle (hmdom.of_reachIn (hyr.mono above_subset)) hyS.1
        hyS.2 hyw hback (.inl hwy.ne')
      -- the loop of the cycle is inside `L`, in the item of `y`
      have hyL := Item.members_subset hi hyi
      rw [hiL] at hyL
      have hunder : (loopTree g).Under c L := by
        rcases (LoopTree.mem_blocks.mp hyc).2.total (LoopTree.mem_blocks.mp hyL).2 with h | h
        · exact h
        · exact absurd (LoopTree.blocks_subset h hd) hdc
      have hcL : c ≠ L := by
        rintro rfl
        exact hdc hd
      obtain ⟨e, hce, he0, hep⟩ := hunder.child hcL
      have hev : (Item.loop e).Valid (loopTree g) := ⟨he0, (hce.le hc).trans_lt hc⟩
      have hie : i = .loop e :=
        Item.eq_of_mem hi hev (hiL.trans hep.symm) hyi (LoopTree.blocks_subset hce hyc)
      refine ih w hwy ?_ (hback.trans hyr)
      rw [hie]
      exact LoopTree.blocks_subset hce hwc
  exact key y hyi hlast

/-! ### Intervals -/

/-- The interval has the item of loop `L` in it that `x` is in. -/
def Spans (g : RpoGraph) (L first last x : ℕ) : Prop :=
  ∃ i : Item, i.Valid (loopTree g) ∧ i.owner (loopTree g) = L ∧ x ∈ i.members (loopTree g) ∧
    ∀ z ∈ i.members (loopTree g), first ≤ place g z ∧ place g z ≤ last

variable {L first last : ℕ}

theorem Spans.mem_blocks {x : ℕ} (h : Spans g L first last x) : x ∈ (loopTree g).blocks L := by
  obtain ⟨i, hi, rfl, hx, -⟩ := h
  exact Item.members_subset hi hx

theorem Spans.bounds {x : ℕ} (h : Spans g L first last x) : first ≤ place g x ∧ place g x ≤ last := by
  obtain ⟨i, -, -, hx, hcov⟩ := h
  exact hcov x hx

theorem Spans.mono {first' last' x : ℕ} (h : Spans g L first last x) (hf : first' ≤ first)
    (hl : last ≤ last') :
    Spans g L first' last' x := by
  obtain ⟨i, hi, hio, hx, hcov⟩ := h
  exact ⟨i, hi, hio, hx, fun z hz => ⟨hf.trans (hcov z hz).1, (hcov z hz).2.trans hl⟩⟩

/-- **What is live lies in the interval**: what reaches a use in the interval without passing the
definition. -/
theorem live_bounds {y u : ℕ} (hL : L < (loopTree g).size) (hd : d ∈ (loopTree g).blocks L)
    (hdf : first ≤ place g d) (hu : Spans g L first last u) (hdom : Dominates g.Edge 0 d u) (hud : u ≠ d)
    (hy : y < g.numBlocks) (hr : ReachIn g.Edge {z | z ≠ d} y u) :
    first ≤ place g y ∧ place g y ≤ last := by
  have hdn := (LoopTree.mem_blocks.mp hd).1
  have hyd : d ≠ y := by
    rintro rfl
    rcases ReflTransGen.cases_head hr with rfl | ⟨w, ⟨-, hne, -⟩, -⟩
    · exact hud rfl
    · exact hne rfl
  have hlow := place_lt_of_dominates hdn hy hyd (hdom.of_reachIn hr)
  obtain ⟨j, hj, hjL, huj, hcov⟩ := hu
  have hyL := mem_blocks_of_reachIn hL hd (hjL ▸ Item.members_subset hj huj) hdom hy hr
  obtain ⟨i, hi, hiL, hyi⟩ := Item.exists_of_mem hyL
  refine ⟨hdf.trans hlow.le, ?_⟩
  rcases item_lt_of_reachIn hL hd hi hj hiL hjL hyi huj hdom hud hr with rfl | hlt
  · exact (hcov y hyi).2
  · exact (place_lt hi hj (hiL.trans hjL.symm) hyi huj hlt).le.trans (hcov u huj).2

/-- Nothing is live behind a block of the innermost loop around everything at which the interval ends. -/
theorem not_live_out {m s u : ℕ} (hL : L < (loopTree g).size) (hd : d ∈ (loopTree g).blocks L)
    (hm : m < g.numBlocks) (hmL : (loopTree g).loopOf m = L) (hml : place g m = last)
    (hu : Spans g L first last u) (hdom : Dominates g.Edge 0 d u) (hud : u ≠ d) (he : g.Edge m s)
    (hsd : s ≠ d)
    (hr : ReachIn g.Edge {z | z ≠ d} s u) : False := by
  have hdn := (LoopTree.mem_blocks.mp hd).1
  have hun := (LoopTree.mem_blocks.mp hu.mem_blocks).1
  by_cases hmd : m = d
  · have hlt := place_lt_of_dominates hdn hun (Ne.symm hud) hdom
    have := hu.bounds.2
    rw [hmd] at hml
    omega
  have hmu : ReachIn g.Edge {z | z ≠ d} m u := (ReachIn.single he hmd hsd).trans hr
  obtain ⟨j, hj, hjL, huj, hcov⟩ := hu
  have hi : (Item.block m).Valid (loopTree g) := hm
  rcases item_lt_of_reachIn hL hd hi hj hmL hjL (Finset.mem_singleton_self m) huj hdom hud hmu with rfl | hlt
  · -- the use is in the last block itself: a cycle, which lies in a loop inside `L`
    obtain rfl := Finset.mem_singleton.mp huj
    have hsn := RpoGraph.Edge.lt_right he
    have hback := reachIn_above hdom hsn hr
    have hum : d < u := lt_of_le_of_ne (RpoGraph.le_of_dominates hm hdom) (Ne.symm hud)
    have hds : d < s := lt_of_le_of_ne (RpoGraph.le_of_dominates hsn (hdom.of_reachIn hr)) (Ne.symm hsd)
    have hne : u ≠ s ∨ g.Edge u u := by
      by_cases hus : u = s
      · refine .inr ?_
        nth_rewrite 2 [hus]
        exact he
      · exact .inl hus
    obtain ⟨c, hc, huc, -, hdc⟩ :=
      exists_loop_of_cycle hdom hum hm (.single he ⟨hum, hm⟩ ⟨hds, hsn⟩) hback hne
    have hunder := (LoopTree.mem_blocks.mp huc).2
    rw [hmL] at hunder
    exact hdc (LoopTree.blocks_subset hunder hd)
  · have := place_lt hi hj (Eq.trans hmL hjL.symm) (Finset.mem_singleton_self m) huj hlt
    have := (hcov u huj).2
    omega

/-- A block with its predecessors and a use in a loop is in the loop. -/
theorem mem_blocks_of_preds {p u : ℕ} (hL : L < (loopTree g).size) (hp : p < g.numBlocks) (hp0 : p ≠ 0)
    (hpred : ∀ q, g.Edge q p → q ∈ (loopTree g).blocks L) (hu : u ∈ (loopTree g).blocks L)
    (hdom : Dominates g.Edge 0 p u) : p ∈ (loopTree g).blocks L := by
  by_cases hL0 : L = 0
  · subst hL0
    exact LoopTree.mem_blocks.mpr ⟨hp, LoopTree.under_zero ((loopTree g).loopOf_lt p hp)⟩
  obtain ⟨⟨anc, pre, hn, -⟩, -⟩ := identifyLoops_spec (g := g)
  obtain ⟨h, hh, hhead, rfl⟩ := exists_head (F := headerForest g) hL
  have h0 : h ≠ 0 := by
    rintro rfl
    exact hL0 blockLoop_zero
  simp only [mem_loopTree_blocks hh hhead h0] at hpred hu ⊢
  -- the head is above the parent of `p` in the search tree, and `p` above the use
  obtain ⟨q, -, he, hanc, -⟩ := hn.tree.step p hp hp0
  have hq := hpred q he
  have hhp : h ∈ anc p := hanc ▸ List.mem_cons_of_mem _ (hn.mem_anc hq.1 hq.2).1
  have hpu := hn.tree.mem_of_dominates hu.1 hdom
  refine ((hn.tree.reachIn hu.1 hpu).inter_back (T := loopBody g h) (fun x z hz he hx _ => ?_) hu).2
  have hxn := RpoGraph.Edge.lt_left he
  exact hn.mem_of_edge hxn (hn.tree.trans hxn hx.1 hhp) he hz

/-- An interval with the predecessors of a block starts before the block. -/
theorem first_le_of_preds {p : ℕ} (hp : p ∈ (loopTree g).blocks L) (hp0 : p ≠ 0)
    (hpred : ∀ q, g.Edge q p → Spans g L first last q) : first ≤ place g p := by
  have hpn := (LoopTree.mem_blocks.mp hp).1
  obtain ⟨k, hk, hkL, hpk⟩ := Item.exists_of_mem hp
  by_cases hfirst : k.first (loopTree g) = p
  · -- `p` comes first of its item, behind a predecessor
    obtain ⟨q, hqp, he⟩ := g.pred p hpn hp0
    obtain ⟨i, hi, hiL, hqi, hcov⟩ := hpred q he
    have hlt : i.first (loopTree g) < k.first (loopTree g) := by
      rw [hfirst]
      exact (Item.first_le hqi).trans_lt hqp
    exact (hcov q hqi).1.trans (place_lt hi hk (hiL.trans hkL.symm) hqi hpk hlt).le
  · -- otherwise `p` has a predecessor in its item
    cases k with
    | block x =>
      exact absurd
        ((Finset.mem_singleton.mp (Item.first_mem hk)).trans (Finset.mem_singleton.mp hpk).symm) hfirst
    | loop c =>
      have hr := blocks_connected hk.2 hk.1 (Item.first_mem hk) hpk
      obtain ⟨q, -, he, hqc, -⟩ := hr.cases_last hfirst
      obtain ⟨i, hi, hiL, hqi, hcov⟩ := hpred q he
      have hik := Item.eq_of_mem hi hk (hiL.trans hkL.symm) hqi hqc
      exact (hcov p (hik ▸ hpk)).1

end Tpde.Analyzer
