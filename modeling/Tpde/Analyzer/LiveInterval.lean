import Tpde.Analyzer.LiveVisit

/-!
# The live intervals of a function

What `switchFunc` computes for a value, against liveness as it is usually
defined. The visits of the analyzer are a list (`allVisits`), and those of one
value decide its entry (`livenessInfo_eq`): definitions and uses, and for a phi
the ends of the blocks that it comes from.

A value is visited straight (`Straight`) when no visit meets the slip in the
test for a nested loop: a deeper loop that is laid out before the lowest common
loop of what has been visited is taken to be inside it. `switchFunc_interval`
is the soundness of the interval for such values, and `switchFunc_lastFull`
says exactly when `last_full` is right.
-/

namespace Tpde.Analyzer

open FlowGraph PointerForest Relation

variable {B V : Type} [DecidableEq B]

/-! ### The visits -/

section
variable (F : Func B V) (L : BlockLayout B)

/-- The visits for a slot of a phi. -/
def slotVisits (phi : V) (slot : B × V) : List (V × ℕ) :=
  if L.blockInfo2 slot.1 = .zero then [] else [(slot.2, L.blockInfo slot.1), (phi, L.blockInfo slot.1)]

/-- The visits for an instruction. -/
def instVisits (blockIdx : ℕ) (inst : Inst V) : List (V × ℕ) :=
  (inst.results ++ inst.operands).map fun v => (v, blockIdx)

/-- The visits for a block. -/
def blockVisits (block : B × ℕ) : List (V × ℕ) :=
  (F.blockPhis block.1).flatMap (fun φ => φ.incoming.flatMap (slotVisits L φ.value)) ++
    (F.blockInsts block.1).flatMap (instVisits block.2)

/-- All visits, in their order. -/
def allVisits : List (V × ℕ) :=
  (if F.livenessVisitArgs then F.curArgs.map fun v => (v, 0) else []) ++
    L.blockLayout.zipIdx.flatMap (blockVisits F L)

/-- The places at which a value is visited, in the order of the visits. -/
def valVisits [DecidableEq V] (v : V) : List ℕ := ((allVisits F L).filter fun e => e.1 = v).map Prod.snd

end

section
variable {F : Func B V} {L : BlockLayout B} {epoch : ℕ}

variable (F L epoch) in
/-- A list of visits. -/
def visitAll (f : ℕ → LivenessInfo) (es : List (V × ℕ)) : ℕ → LivenessInfo :=
  es.foldl (fun f e => visitVec F L epoch f e.1 e.2) f

omit [DecidableEq B] in
theorem visitAll_append (f : ℕ → LivenessInfo) (es es' : List (V × ℕ)) :
    visitAll F L epoch f (es ++ es') = visitAll F L epoch (visitAll F L epoch f es) es' := List.foldl_append

omit [DecidableEq B] in
variable (F epoch) in
/-- A loop whose rounds make the visits of their items, under what they keep. -/
theorem visitAll_foldl {α : Type} {P : LiveState B → Prop} (step : LiveState B → α → LiveState B)
    (visits : α → List (V × ℕ)) (l : List α) (s : LiveState B) (hs : P s)
    (h : ∀ s, P s → ∀ a ∈ l, P (step s a) ∧ (step s a).liveness = visitAll F L epoch s.liveness (visits a)) :
    P (l.foldl step s) ∧ (l.foldl step s).liveness = visitAll F L epoch s.liveness (l.flatMap visits) := by
  induction l generalizing s with
  | nil => exact ⟨hs, rfl⟩
  | cons a l ih =>
    obtain ⟨hP, heq⟩ := h s hs a List.mem_cons_self
    obtain ⟨hP', heq'⟩ := ih (step s a) hP fun s hs b hb => h s hs b (List.mem_cons_of_mem _ hb)
    refine ⟨hP', heq'.trans ?_⟩
    rw [heq, List.flatMap_cons, visitAll_append]

/-- The words that are 0 stay so, and no other. -/
def SameZero (L : BlockLayout B) (s : LiveState B) : Prop := ∀ b, s.blockInfo2 b = .zero ↔
    L.blockInfo2 b = .zero

omit [DecidableEq B] in
theorem visitSlot_visits {phi : V} {slot : B × V} {s : LiveState B} (hs : SameZero L s) :
    SameZero L (visitSlot F L epoch phi s slot) ∧
      (visitSlot F L epoch phi s slot).liveness = visitAll F L epoch s.liveness (slotVisits L phi slot) := by
  unfold visitSlot slotVisits
  by_cases hz : L.blockInfo2 slot.1 = .zero
  · rw [if_pos hz, if_pos ((hs _).mpr hz)]
    exact ⟨hs, rfl⟩
  · rw [if_neg hz, if_neg (mt (hs _).mp hz)]
    exact ⟨hs, rfl⟩

omit [DecidableEq B] in
theorem visitInst_visits {k : ℕ} {inst : Inst V} {s : LiveState B} (hs : SameZero L s) :
    SameZero L (visitInst F L epoch k s inst) ∧
      (visitInst F L epoch k s inst).liveness = visitAll F L epoch s.liveness (instVisits k inst) := by
  have hres := visitAll_foldl F epoch (visitResult F L epoch k) (fun v => [(v, k)]) inst.results s hs
    fun s hs v _ => ⟨hs, rfl⟩
  have hops :=
    visitAll_foldl F epoch (fun s v => s.visit F L epoch v k) (fun v => [(v, k)]) inst.operands _ hres.1
    fun s hs v _ => ⟨hs, rfl⟩
  refine ⟨hops.1, hops.2.trans ?_⟩
  rw [hres.2, ← visitAll_append, instVisits, List.map_append, List.map_eq_flatMap, List.map_eq_flatMap]

theorem visitBlock_visits {block : B × ℕ} {s : LiveState B} (hb : L.blockInfo2 block.1 ≠ .zero)
    (hs : SameZero L s) :
    SameZero L (visitBlock F L epoch s block) ∧
      (visitBlock F L epoch s block).liveness = visitAll F L epoch s.liveness (blockVisits F L block) := by
  obtain ⟨hphi, heq⟩ :=
    visitAll_foldl F epoch (visitPhi F L epoch) _ (F.blockPhis block.1) s hs fun s hs φ _ =>
    visitAll_foldl F epoch (visitSlot F L epoch φ.value) _ φ.incoming s hs fun s hs slot _ =>
      visitSlot_visits hs
  -- the mark for the phis is on a word that is not 0
  have hmark : ∀ s : LiveState B, SameZero L s → SameZero L (s.markHasPhis block.1) := by
    intro s hs b
    by_cases hbb : b = block.1
    · subst hbb
      have hnz : (s.markHasPhis block.1).blockInfo2 block.1 ≠ .zero := by
        simp [LiveState.markHasPhis, BlockInfo2.zero]
      exact iff_of_false hnz hb
    · have hb' : (s.markHasPhis block.1).blockInfo2 b = s.blockInfo2 b := Function.update_of_ne hbb ..
      rw [hb']
      exact hs b
  unfold visitBlock blockVisits
  dsimp only
  rw [visitAll_append, ← heq]
  split_ifs
  · exact visitAll_foldl F epoch _ _ _ _ hphi fun s hs i _ => visitInst_visits hs
  · exact visitAll_foldl F epoch _ _ _ _ (hmark _ hphi) fun s hs i _ => visitInst_visits hs

/-- The loop makes all visits. -/
theorem liveLoop_liveness (hL : ∀ b ∈ L.blockLayout, L.blockInfo2 b ≠ .zero) (f : ℕ → LivenessInfo) :
    (liveLoop F L epoch f).liveness = visitAll F L epoch f (allVisits F L) := by
  have hblocks : ∀ s : LiveState B, SameZero L s →
      (L.blockLayout.zipIdx.foldl (visitBlock F L epoch) s).liveness =
        visitAll F L epoch s.liveness (L.blockLayout.zipIdx.flatMap (blockVisits F L)) := fun s hs =>
    (visitAll_foldl F epoch (visitBlock F L epoch) _ L.blockLayout.zipIdx s hs fun s hs block hb =>
      visitBlock_visits (hL _ (List.fst_mem_of_mem_zipIdx hb)) hs).2
  unfold liveLoop allVisits
  dsimp only
  rw [visitAll_append]
  split_ifs
  · have hargs := visitAll_foldl F epoch (P := SameZero L) (fun s v => s.visit F L epoch v 0)
      (fun v => [(v, 0)]) F.curArgs ⟨f, fun _ => 0, 0, L.blockInfo2⟩ (fun _ => Iff.rfl)
      fun s hs v _ => ⟨hs, rfl⟩
    rw [hblocks _ hargs.1, hargs.2, List.map_eq_flatMap]
  · exact hblocks _ fun _ => Iff.rfl

omit [DecidableEq B] in
/-- The entry of a value is made by its visits. -/
theorem visitAll_valLocalIdx [DecidableEq V] {v : V} (hv : F.valIgnore v = false)
    (hinj : ∀ w, F.valIgnore w = false → F.valLocalIdx w = F.valLocalIdx v → w = v) (es : List (V × ℕ))
    (f : ℕ → LivenessInfo) : visitAll F L epoch f es (F.valLocalIdx v) =
      ((es.filter fun e => e.1 = v).map Prod.snd).foldl (visitInfo L.loops L.blockLoopMap epoch)
        (f (F.valLocalIdx v)) := by
  induction es generalizing f with
  | nil => rfl
  | cons e es ih =>
    rw [visitAll, List.foldl_cons]
    refine (ih _).trans ?_
    by_cases hev : e.1 = v
    · rw [List.filter_cons_of_pos (by simpa using hev), List.map_cons, List.foldl_cons]
      simp [visitVec, hev, hv]
    · have hsame : visitVec F L epoch f e.1 e.2 (F.valLocalIdx v) = f (F.valLocalIdx v) := by
        unfold visitVec
        split_ifs with hig
        · rfl
        · exact Function.update_of_ne (fun heq => hev (hinj e.1 (by simpa using hig) heq.symm)) ..
      rw [List.filter_cons_of_neg (by simpa using hev), hsame]

end

/-! ### Straight visits -/

section
variable (L : BlockLayout B)

/-- `C` is the innermost loop around the blocks at the places `ps`. -/
def BlockLayout.IsCommon (C : ℕ) (ps : List ℕ) : Prop :=
  (∀ p ∈ ps, L.Under (L.blockLoopMap p) C) ∧ ∀ D, (∀ p ∈ ps, L.Under (L.blockLoopMap p) D) → L.Under C D

/-- No place of the list is in a loop that is deeper than the innermost loop around the places before, and
laid out before it. -/
def BlockLayout.Straight (ps : List ℕ) : Prop :=
  ∀ pre p post, ps = pre ++ p :: post → pre ≠ [] → ∀ C, L.IsCommon C pre →
    L.loops.level C < L.loops.level (L.blockLoopMap p) →
      L.loops.beginOf C ≤ L.loops.beginOf (L.blockLoopMap p)

/-- Where the place comes first in the list, all places before it are in its innermost loop. -/
def BlockLayout.FirstInside (ps : List ℕ) (m : ℕ) : Prop :=
  ∃ pre post, ps = pre ++ m :: post ∧ ∀ p ∈ pre, L.Under (L.blockLoopMap p) (L.blockLoopMap m)

/-- The place is the last of what the list covers: the items of the innermost loop around all places of
the list that have such a place in them. -/
def BlockLayout.EndsAt (ps : List ℕ) (m : ℕ) : Prop :=
  m ∈ ps ∧ ∃ C, L.IsCommon C ps ∧ ∀ p ∈ ps, p ≤ m ∧
    ∀ e, L.Under (L.blockLoopMap p) e → e ≠ 0 → L.loops.parent e = C → L.loops.endIdx e ≤ m + 1

end

/-! ### The visits of a value -/

section
variable {F : Func B V}

omit [DecidableEq B] in
theorem mem_valVisits [DecidableEq V] {L : BlockLayout B} {v : V} {p : ℕ} :
    p ∈ valVisits F L v ↔ (v, p) ∈ allVisits F L := by
  simp [valVisits]

theorem blockInfo2_buildBlockLayout {A : Cfg B} {b : B} :
    (buildBlockLayout A).blockInfo2 b = .zero ↔ b ∉ (buildRpoBlockOrder A).out := blockInfo2_eq_zero_iff

theorem mem_layout {A : Cfg B} {b : B} {p : ℕ} : (b, p) ∈ (buildBlockLayout A).blockLayout.zipIdx ↔
    b ∈ (buildRpoBlockOrder A).out ∧ (buildBlockLayout A).blockInfo b = p := by
  rw [List.mem_zipIdx_iff_getElem?]
  constructor
  · exact blockInfo_of_getElem?
  · rintro ⟨hb, rfl⟩
    exact blockLayout_blockInfo hb

theorem blockInfo_curEntryBlock {A : Cfg B} : (buildBlockLayout A).blockInfo A.curEntryBlock = 0 := by
  have h := blockLayout_perm (A := A) |>.2
  rw [List.head?_eq_getElem?] at h
  exact (blockInfo_of_getElem? h).2

/-- The visits are at the places of the blocks that are reached, where the value occurs. -/
theorem mem_allVisits (hpred : ∀ b, ∀ φ ∈ F.blockPhis b, ∀ s ∈ φ.incoming, F.Edge s.1 b) {v : V} {p : ℕ} :
    (v, p) ∈ allVisits F (buildBlockLayout F.toCfg) ↔
      ∃ b ∈ (buildRpoBlockOrder F.toCfg).out, (buildBlockLayout F.toCfg).blockInfo b = p ∧ F.Occurs v b := by
  unfold allVisits
  rw [List.mem_append, List.mem_flatMap]
  constructor
  · rintro (hargs | ⟨⟨c, q⟩, hc, hv⟩)
    · split_ifs at hargs with hflag
      · obtain ⟨w, hw, heq⟩ := List.mem_map.mp hargs
        obtain ⟨rfl, rfl⟩ := Prod.mk.inj heq
        exact ⟨F.curEntryBlock, mem_out_iff.mpr ReflTransGen.refl, blockInfo_curEntryBlock,
          .inl (.inl ⟨hflag, hw, rfl⟩)⟩
      · exact absurd hargs List.not_mem_nil
    · obtain ⟨hcm, hcq⟩ := mem_layout.mp hc
      rcases List.mem_append.mp hv with hv | hv
      · obtain ⟨φ, hφ, hv⟩ := List.mem_flatMap.mp hv
        obtain ⟨⟨b, w⟩, hslot, hv⟩ := List.mem_flatMap.mp hv
        unfold slotVisits at hv
        split_ifs at hv with hz
        · exact absurd hv List.not_mem_nil
        · have hb := not_not.mp (mt blockInfo2_buildBlockLayout.mpr hz)
          rcases List.mem_cons.mp hv with heq | hv
          · obtain ⟨rfl, rfl⟩ := Prod.mk.inj heq
            exact ⟨b, hb, rfl, .inr (.inl (.inr ⟨c, φ, hφ, hslot⟩))⟩
          · obtain ⟨rfl, rfl⟩ := Prod.mk.inj (List.mem_singleton.mp hv)
            exact ⟨b, hb, rfl, .inr (.inr ⟨c, φ, hφ, rfl, w, hslot⟩)⟩
      · obtain ⟨i, hi, hv⟩ := List.mem_flatMap.mp hv
        obtain ⟨w, hw, heq⟩ := List.mem_map.mp hv
        obtain ⟨rfl, rfl⟩ := Prod.mk.inj heq
        refine ⟨c, hcm, hcq, ?_⟩
        rcases List.mem_append.mp hw with hw | hw
        · exact .inl (.inr ⟨i, hi, hw⟩)
        · exact .inr (.inl (.inl ⟨i, hi, hw⟩))
  · rintro ⟨b, hb, rfl, hocc⟩
    -- a phi with a slot for `b` is in a successor of `b`
    have hphi : ∀ c, ∀ φ ∈ F.blockPhis c, ∀ w, (b, w) ∈ φ.incoming →
        ∀ e ∈ [(w, (buildBlockLayout F.toCfg).blockInfo b),
            (φ.value, (buildBlockLayout F.toCfg).blockInfo b)],
          ∃ block ∈ (buildBlockLayout F.toCfg).blockLayout.zipIdx,
            e ∈ blockVisits F (buildBlockLayout F.toCfg) block := by
      intro c φ hφ w hw e he
      refine ⟨(c, _), mem_layout.mpr ⟨out_succ hb (hpred c φ hφ _ hw), rfl⟩, List.mem_append_left _ ?_⟩
      refine List.mem_flatMap.mpr ⟨φ, hφ, List.mem_flatMap.mpr ⟨(b, w), hw, ?_⟩⟩
      unfold slotVisits
      rw [if_neg fun hz => blockInfo2_buildBlockLayout.mp hz hb]
      exact he
    have hinst : ∀ i ∈ F.blockInsts b, v ∈ i.results ++ i.operands →
        ∃ block ∈ (buildBlockLayout F.toCfg).blockLayout.zipIdx,
          (v, (buildBlockLayout F.toCfg).blockInfo b) ∈ blockVisits F (buildBlockLayout F.toCfg) block := by
      intro i hi hvi
      refine ⟨(b, _), mem_layout.mpr ⟨hb, rfl⟩, List.mem_append_right _ ?_⟩
      exact List.mem_flatMap.mpr ⟨i, hi, List.mem_map.mpr ⟨v, hvi, rfl⟩⟩
    rcases hocc with (⟨hflag, hv, rfl⟩ | ⟨i, hi, hv⟩) | (⟨i, hi, hv⟩ | ⟨c, φ, hφ, hv⟩) | ⟨c, φ, hφ,
      rfl, w, hw⟩
    · refine .inl ?_
      rw [if_pos hflag, blockInfo_curEntryBlock]
      exact List.mem_map.mpr ⟨v, hv, rfl⟩
    · exact .inr (hinst i hi (List.mem_append_left _ hv))
    · exact .inr (hinst i hi (List.mem_append_right _ hv))
    · exact .inr (hphi c φ hφ v hv _ List.mem_cons_self)
    · exact .inr (hphi c φ hφ w hw _ (by simp))

end

/-! ### Places and numbers -/

section
variable {A : Cfg B}

theorem under_place {x C : ℕ} (hx : x < (blockGraph A).numBlocks) :
    (buildBlockLayout A).Under ((buildBlockLayout A).blockLoopMap (place (blockGraph A) x)) C ↔
      x ∈ (loopTree (blockGraph A)).blocks C := by
  rw [under_iff, LoopTree.mem_blocks]
  have hmap :
    (buildBlockLayout A).blockLoopMap (place (blockGraph A) x) = (loopTree (blockGraph A)).loopOf x :=
    blockLoopMap_place hx
  rw [hmap]
  exact (and_iff_right hx).symm

variable {us : List ℕ} (hus : ∀ x ∈ us, x < (blockGraph A).numBlocks)
include hus

theorem isCommon_map (hne : us ≠ []) {C : ℕ} :
    (buildBlockLayout A).IsCommon C (us.map (place (blockGraph A))) ↔ IsCommon (blockGraph A) C us := by
  have hmem : ∀ D, (∀ p ∈ us.map (place (blockGraph A)),
      (buildBlockLayout A).Under ((buildBlockLayout A).blockLoopMap p) D) ↔
        ∀ x ∈ us, x ∈ (loopTree (blockGraph A)).blocks D := by
    intro D
    rw [List.forall_mem_map]
    exact forall₂_congr fun x hx => under_place (hus x hx)
  unfold BlockLayout.IsCommon
  simp only [hmem]
  simp only [under_iff]
  constructor
  · rintro ⟨hmem, hleast⟩
    obtain ⟨x, hx⟩ := List.exists_mem_of_ne_nil us hne
    obtain ⟨hxn, hu⟩ := LoopTree.mem_blocks.mp (hmem x hx)
    have hlt := (loopTree (blockGraph A)).loopOf_lt x hxn
    exact ⟨(hu.le hlt).trans_lt hlt, hmem, hleast⟩
  · exact fun h => ⟨h.mem, h.least⟩

theorem straight_map (h : (buildBlockLayout A).Straight (us.map (place (blockGraph A)))) :
    StraightNodes (blockGraph A) us := by
  rintro pre u post rfl hne L hL
  have hu := hus u (by simp)
  have hmap :
    (buildBlockLayout A).blockLoopMap (place (blockGraph A) u) = (loopTree (blockGraph A)).loopOf u :=
    blockLoopMap_place hu
  have hs := h (pre.map (place (blockGraph A))) (place (blockGraph A) u) (post.map (place (blockGraph A)))
    (by simp) (by simpa using hne) L
      ((isCommon_map (fun x hx => hus x (List.mem_append_left _ hx)) hne).mpr hL)
  rw [hmap] at hs
  exact hs

theorem firstInside_map {m : ℕ} (hm : m < (blockGraph A).numBlocks) :
    (buildBlockLayout A).FirstInside (us.map (place (blockGraph A))) (place (blockGraph A) m) ↔
      FirstInside (blockGraph A) us m := by
  have hmap :
    (buildBlockLayout A).blockLoopMap (place (blockGraph A) m) = (loopTree (blockGraph A)).loopOf m :=
    blockLoopMap_place hm
  constructor
  · rintro ⟨pre', post', heq, hpre⟩
    obtain ⟨pre, rest, rfl, rfl, hrest⟩ := List.map_eq_append_iff.mp heq
    obtain ⟨m', post, rfl, hmm, rfl⟩ := List.map_eq_cons_iff.mp hrest
    obtain rfl := place_inj (hus m' (by simp)) hm hmm
    rw [List.forall_mem_map, hmap] at hpre
    exact ⟨pre, post, rfl, fun x hx => (under_place (hus x (List.mem_append_left _ hx))).mp (hpre x hx)⟩
  · rintro ⟨pre, post, rfl, hpre⟩
    refine ⟨pre.map (place (blockGraph A)), post.map (place (blockGraph A)), by simp, ?_⟩
    rw [List.forall_mem_map, hmap]
    exact fun x hx => (under_place (hus x (List.mem_append_left _ hx))).mpr (hpre x hx)

/-- The last place that is covered is the end of the interval. -/
theorem endsAt_map {i : LivenessInfo} {m : ℕ} (h : VisitInv (blockGraph A) us i) (hm : m ∈ us) :
    (buildBlockLayout A).EndsAt (us.map (place (blockGraph A))) (place (blockGraph A) m) ↔
      place (blockGraph A) m = i.last := by
  have hne : us ≠ [] := List.ne_nil_of_mem hm
  have hitem : ∀ x ∈ us, ∀ e,
    (buildBlockLayout A).Under ((buildBlockLayout A).blockLoopMap (place (blockGraph A) x)) e ↔
      x ∈ (Item.loop e).members (loopTree (blockGraph A)) := fun x hx e => under_place (hus x hx)
  have hparent : (buildBlockLayout A).loops.parent = (loopTree (blockGraph A)).parent := buildLayout_parent
  constructor
  · rintro ⟨-, C, hC, hall⟩
    rw [isCommon_map hus hne] at hC
    rw [List.forall_mem_map] at hall
    obtain ⟨k, hk, ho, hhigh, x, hx, hxk⟩ := h.attained
    have hCL : C = i.lowestCommonLoop :=
      le_antisymm ((h.common.least C hC.mem).le h.common.lt) ((hC.least _ h.common.mem).le hC.lt)
    refine le_antisymm (h.place_le hm) ?_
    rw [← hhigh]
    cases k with
    | block y =>
      obtain rfl := Finset.mem_singleton.mp hxk
      exact (hall x hx).1
    | loop e =>
      have hend := (hall x hx).2 e ((hitem x hx e).mpr hxk) hk.1 (by rw [hparent, hCL]; exact ho)
      exact Nat.sub_le_of_le_add hend
  · intro hlast
    refine ⟨List.mem_map_of_mem hm, i.lowestCommonLoop, (isCommon_map hus hne).mpr h.common, ?_⟩
    rw [List.forall_mem_map, hlast]
    refine fun x hx => ⟨h.place_le hx, fun e he he0 hp => ?_⟩
    rw [hitem x hx] at he
    rw [hparent] at hp
    obtain ⟨k, hk, ho, hxk, hcov⟩ := h.spans x hx
    have hxn := hus x hx
    have hev : (Item.loop e).Valid (loopTree (blockGraph A)) := by
      have hlt := (loopTree (blockGraph A)).loopOf_lt x hxn
      exact ⟨he0, ((LoopTree.mem_blocks.mp he).2.le hlt).trans_lt hlt⟩
    obtain rfl := Item.eq_of_mem hk hev (ho.trans hp.symm) hxk he
    obtain ⟨z, hz, hzp⟩ := (Item.mem_iff hk).2.2
    have hle := (hcov z hz).2
    rw [hzp] at hle
    exact Nat.le_add_of_sub_le hle

end

/-! ### The entry of a value -/

section
variable [DecidableEq V] {F : Func B V} {v : V}

variable (F v) in
/-- The visits of a value, with the blocks by their number. -/
def nodeVisits : List ℕ :=
  (valVisits F (buildBlockLayout F.toCfg) v).map (buildLayout (blockGraph F.toCfg)).blockLayout

theorem mem_nodeVisits (hF : F.Ssa) {x : ℕ} : x ∈ nodeVisits F v ↔
    ∃ b ∈ (buildRpoBlockOrder F.toCfg).out, (buildRpoBlockOrder F.toCfg).blockInfo b = x ∧ F.Occurs v b := by
  have hplace : ∀ b ∈ (buildRpoBlockOrder F.toCfg).out, (buildLayout (blockGraph F.toCfg)).blockLayout
      ((buildBlockLayout F.toCfg).blockInfo b) = (buildRpoBlockOrder F.toCfg).blockInfo b := fun b hb => by
    rw [blockInfo_eq_place hb, blockLayout_place (blockInfo_lt hb)]
  simp only [nodeVisits, List.mem_map, mem_valVisits, mem_allVisits hF.phi_pred]
  constructor
  · rintro ⟨p, ⟨b, hb, rfl, hocc⟩, rfl⟩
    exact ⟨b, hb, (hplace b hb).symm, hocc⟩
  · rintro ⟨b, hb, rfl, hocc⟩
    exact ⟨_, ⟨b, hb, rfl, hocc⟩, hplace b hb⟩

theorem nodeVisits_lt (hF : F.Ssa) : ∀ x ∈ nodeVisits F v, x < (blockGraph F.toCfg).numBlocks := by
  intro x hx
  obtain ⟨b, hb, rfl, -⟩ := (mem_nodeVisits hF).mp hx
  exact blockInfo_lt hb

theorem map_nodeVisits (hF : F.Ssa) :
    (nodeVisits F v).map (place (blockGraph F.toCfg)) = valVisits F (buildBlockLayout F.toCfg) v := by
  rw [nodeVisits, List.map_map]
  refine (List.map_congr_left fun p hp => ?_).trans (List.map_id _)
  obtain ⟨b, hb, rfl, -⟩ := (mem_allVisits hF.phi_pred).mp (mem_valVisits.mp hp)
  rw [Function.comp_apply, blockInfo_eq_place hb, blockLayout_place (blockInfo_lt hb)]
  rfl

theorem LivenessTable.bump_lt (t : LivenessTable) (i : ℕ) : (t.bump.liveness i).epoch < t.bump.epoch := by
  unfold bump
  split_ifs
  · exact Nat.lt_succ_of_le (t.le_epoch i)
  · exact Nat.zero_lt_one

/-- The entry of a value is what its visits make of an old entry. -/
theorem livenessInfo_eq (hF : F.Ssa) (hv : F.valIgnore v = false) (t : LivenessTable) :
    (switchFunc F t).livenessInfo (F.valLocalIdx v) =
      (nodeVisits F v).foldl (visitNode (blockGraph F.toCfg) t.bump.epoch)
        (t.bump.liveness (F.valLocalIdx v)) := by
  have hL : ∀ b ∈ (buildBlockLayout F.toCfg).blockLayout, (buildBlockLayout F.toCfg).blockInfo2 b ≠ .zero :=
    fun b hb hz => blockInfo2_buildBlockLayout.mp hz (blockLayout_perm.1.mem_iff.mp hb)
  have heq : (switchFunc F t).livenessInfo (F.valLocalIdx v) =
      (liveLoop F (buildBlockLayout F.toCfg) t.bump.epoch t.bump.liveness).liveness (F.valLocalIdx v) := rfl
  rw [heq, liveLoop_liveness hL, visitAll_valLocalIdx hv fun w hw => hF.valLocalIdx_inj w v hw hv]
  have hmap := map_nodeVisits (v := v) hF
  unfold valVisits at hmap
  rw [← hmap, List.foldl_map]
  rfl

/-- The invariant of the visits holds of the entry. -/
theorem livenessInfo_inv (hF : F.Ssa) (hv : F.valIgnore v = false) (t : LivenessTable)
    (hs : (buildBlockLayout F.toCfg).Straight (valVisits F (buildBlockLayout F.toCfg) v))
    {b : B} (hb : F.Reachable b) (hocc : F.Occurs v b) :
    VisitInv (blockGraph F.toCfg) (nodeVisits F v) ((switchFunc F t).livenessInfo (F.valLocalIdx v)) := by
  rw [livenessInfo_eq hF hv t]
  refine visits_inv (t.bump_lt _).ne ?_ (nodeVisits_lt hF) ?_
  · exact List.ne_nil_of_mem ((mem_nodeVisits hF).mpr ⟨b, mem_out_iff.mpr hb, rfl, hocc⟩)
  · rw [← map_nodeVisits hF] at hs
    exact straight_map (nodeVisits_lt hF) hs

end

/-! ### Soundness -/

section
variable [DecidableEq V] {F : Func B V} {v : V}

omit [DecidableEq B] [DecidableEq V] in
/-- What a value that is live reaches. -/
theorem liveIn_reachIn {d : B} (hd : ∀ b, F.DefIn v b ↔ b = d) {b : B} (h : F.LiveIn v b) :
    ∃ u, F.UseIn v u ∧ u ≠ d ∧ b ≠ d ∧ ReachIn F.Edge {z | z ≠ d} b u := by
  induction h with
  | @use b hdef hu =>
    rw [hd] at hdef
    exact ⟨b, hu, hdef, hdef, .refl _ _⟩
  | @succ b c hdef he _ ih =>
    obtain ⟨u, hu, hud, hcd, hr⟩ := ih
    rw [hd] at hdef
    exact ⟨u, hu, hud, hdef, (ReachIn.single he hdef hcd).trans hr⟩

omit [DecidableEq V] in
/-- The same by the numbers of the blocks. -/
theorem reachIn_blockInfo {A : Cfg B} {d b u : B} (hd : d ∈ (buildRpoBlockOrder A).out)
    (hb : b ∈ (buildRpoBlockOrder A).out) (h : ReachIn A.Edge {z | z ≠ d} b u) :
    ReachIn (blockGraph A).Edge {z | z ≠ (buildRpoBlockOrder A).blockInfo d}
      ((buildRpoBlockOrder A).blockInfo b)
      ((buildRpoBlockOrder A).blockInfo u) := by
  have hout :=
    (h.inter (T := {z | z ∈ (buildRpoBlockOrder A).out}) (fun x y hx he _ _ => out_succ hx he) hb).1
  refine hout.map _ fun x y he hx hy => ⟨edge_blockInfo hx.2 he, ?_, ?_⟩
  · exact fun heq => hx.1 (by rw [← blockAt_blockInfo hx.2, heq, blockAt_blockInfo hd])
  · exact fun heq => hy.1 (by rw [← blockAt_blockInfo hy.2, heq, blockAt_blockInfo hd])

/-- What is known of a value with a use: its one definition, in the common loop and not before the
interval, and the use, which it dominates. -/
theorem exists_def (hF : F.Ssa) (hv : F.valIgnore v = false) {i : LivenessInfo}
    (h : VisitInv (blockGraph F.toCfg) (nodeVisits F v) i) {u : B} (hu : F.Reachable u) (huse : F.UseIn v u) :
    ∃ d, (∀ b, F.DefIn v b ↔ b = d) ∧ d ∈ (buildRpoBlockOrder F.toCfg).out ∧
      (buildRpoBlockOrder F.toCfg).blockInfo d ∈ (loopTree (blockGraph F.toCfg)).blocks i.lowestCommonLoop ∧
      i.first ≤ (buildBlockLayout F.toCfg).blockInfo d ∧ (buildBlockLayout F.toCfg).blockInfo d ≤ i.last := by
  obtain ⟨d, hd⟩ := hF.exists_def v u hv hu huse
  have hdom := hF.dominates v d u hv hd hu huse
  have hdo : d ∈ (buildRpoBlockOrder F.toCfg).out := mem_out_iff.mpr (hdom.reach hu)
  have huo : u ∈ (buildRpoBlockOrder F.toCfg).out := mem_out_iff.mpr hu
  have hspan : ∀ b ∈ (buildRpoBlockOrder F.toCfg).out, F.Occurs v b →
      Spans (blockGraph F.toCfg) i.lowestCommonLoop i.first i.last
        ((buildRpoBlockOrder F.toCfg).blockInfo b) :=
    fun b hb hocc => h.spans _ ((mem_nodeVisits hF).mpr ⟨b, hb, rfl, hocc⟩)
  have huspan := hspan u huo (.inr (.inl huse))
  refine ⟨d, fun b => ⟨fun hb => hF.def_unique v b d hv hb hd, fun hb => hb ▸ hd⟩, hdo, ?_⟩
  rw [blockInfo_eq_place hdo]
  rcases hd with hinst | ⟨φ, hφ, rfl⟩
  · have hdspan := hspan d hdo (.inl hinst)
    exact ⟨hdspan.mem_blocks, hdspan.bounds⟩
  · -- a phi is visited at the end of its predecessors
    have hd0 : (buildRpoBlockOrder F.toCfg).blockInfo d ≠ 0 := by
      intro h0
      have hde : d = F.curEntryBlock := by
        rw [← blockAt_blockInfo hdo, h0]
        exact blockAt_zero
      rw [hde, hF.phi_entry] at hφ
      exact absurd hφ List.not_mem_nil
    have hpred : ∀ q, (blockGraph F.toCfg).Edge q ((buildRpoBlockOrder F.toCfg).blockInfo d) →
        Spans (blockGraph F.toCfg) i.lowestCommonLoop i.first i.last q := by
      intro q hq
      have hqn := RpoGraph.Edge.lt_left hq
      have he := edge_blockAt hq
      rw [blockAt_blockInfo hdo] at he
      obtain ⟨w, hw⟩ := hF.phi_slot d φ hφ _ he
      have hspan' := hspan _ (List.mem_of_getElem? (blockAt_mem hqn)) (.inr (.inr ⟨d, φ, hφ, rfl, w, hw⟩))
      rwa [blockInfo_blockAt hqn] at hspan'
    have hdom' := dominates_blockInfo hdo huo hdom
    have hdL := mem_blocks_of_preds h.common.lt (blockInfo_lt hdo) hd0 (fun q hq => (hpred q hq).mem_blocks)
      huspan.mem_blocks hdom'
    refine ⟨hdL, first_le_of_preds hdL hd0 hpred, ?_⟩
    by_cases hdu : (buildRpoBlockOrder F.toCfg).blockInfo d = (buildRpoBlockOrder F.toCfg).blockInfo u
    · rw [hdu]
      exact huspan.bounds.2
    · exact (place_lt_of_dominates (blockInfo_lt hdo) (blockInfo_lt huo) hdu hdom').le.trans huspan.bounds.2

omit [DecidableEq B] [DecidableEq V] in
theorem liveIn_exists_use {b : B} (h : F.LiveIn v b) (hb : F.Reachable b) : ∃ u, F.Reachable u ∧
    F.UseIn v u := by
  induction h with
  | use _ hu => exact ⟨_, hb, hu⟩
  | succ _ he _ ih => exact ih (hb.tail he)

/-- A way to a use, as the theorems about the layout want it. -/
theorem liveIn_way (hF : F.Ssa) (hv : F.valIgnore v = false) {i : LivenessInfo}
    (h : VisitInv (blockGraph F.toCfg) (nodeVisits F v) i) {d : B} (hd : ∀ b, F.DefIn v b ↔ b = d)
    (hdo : d ∈ (buildRpoBlockOrder F.toCfg).out) {b : B} (hb : F.Reachable b) (hl : F.LiveIn v b) :
    ∃ u, Spans (blockGraph F.toCfg) i.lowestCommonLoop i.first i.last u ∧
      Dominates (blockGraph F.toCfg).Edge 0 ((buildRpoBlockOrder F.toCfg).blockInfo d) u ∧
      u ≠ (buildRpoBlockOrder F.toCfg).blockInfo d ∧
      (buildRpoBlockOrder F.toCfg).blockInfo b ≠ (buildRpoBlockOrder F.toCfg).blockInfo d ∧
      ReachIn (blockGraph F.toCfg).Edge {z | z ≠ (buildRpoBlockOrder F.toCfg).blockInfo d}
        ((buildRpoBlockOrder F.toCfg).blockInfo b) u := by
  obtain ⟨u, hu, hud, hbd, hr⟩ := liveIn_reachIn hd hl
  have hur : F.Reachable u := ReflTransGen.trans hb hr.reach
  have huo := mem_out_iff.mpr hur
  have hne : ∀ c ∈ (buildRpoBlockOrder F.toCfg).out, c ≠ d →
      (buildRpoBlockOrder F.toCfg).blockInfo c ≠ (buildRpoBlockOrder F.toCfg).blockInfo d :=
        fun c hc hcd heq =>
    hcd (by rw [← blockAt_blockInfo hc, heq, blockAt_blockInfo hdo])
  refine ⟨_, h.spans _ ((mem_nodeVisits hF).mpr ⟨u, huo, rfl, .inr (.inl hu)⟩), ?_, hne u huo hud,
    hne b (mem_out_iff.mpr hb) hbd, reachIn_blockInfo hdo (mem_out_iff.mpr hb) hr⟩
  exact dominates_blockInfo hdo huo (hF.dominates v d u hv ((hd d).mpr rfl) hur hu)

/-- The interval has place `p` in it. -/
def LivenessInfo.Contains (i : LivenessInfo) (p : ℕ) : Prop := i.first ≤ p ∧ p ≤ i.last

/-- **The interval is sound**: every block in which a value is live is in its interval, if the visits are
straight. The block of a phi that is not used is not looked at. -/
theorem switchFunc_interval (hF : F.Ssa) (t : LivenessTable) (hv : F.valIgnore v = false)
    (hs : (buildBlockLayout F.toCfg).Straight (valVisits F (buildBlockLayout F.toCfg) v)) {b : B}
    (hb : F.Reachable b) (hl : F.Live v b) (hphi : F.PhiDef v b → ∃ u, F.Reachable u ∧ F.UseIn v u) :
    ((switchFunc F t).livenessInfo (F.valLocalIdx v)).Contains ((switchFunc F t).layout.blockInfo b) := by
  have hinfo : (switchFunc F t).layout.blockInfo = (buildBlockLayout F.toCfg).blockInfo := rfl
  rw [hinfo]
  generalize hi : (switchFunc F t).livenessInfo (F.valLocalIdx v) = i
  have hinv : ∀ {c}, F.Reachable c → F.Occurs v c → VisitInv (blockGraph F.toCfg) (nodeVisits F v) i :=
    fun hc hocc => hi ▸ livenessInfo_inv hF hv t hs hc hocc
  have hbo := mem_out_iff.mpr hb
  have hocc : F.Occurs v b → i.Contains ((buildBlockLayout F.toCfg).blockInfo b) := by
    intro hocc
    rw [blockInfo_eq_place hbo]
    exact ((hinv hb hocc).spans _ ((mem_nodeVisits hF).mpr ⟨b, hbo, rfl, hocc⟩)).bounds
  -- with a use that is reached, the definition is in the interval
  have hdef : F.DefIn v b → (∃ u, F.Reachable u ∧ F.UseIn v u) →
      i.Contains ((buildBlockLayout F.toCfg).blockInfo b) := by
    rintro hd ⟨u, hu, huse⟩
    obtain ⟨d, hiff, -, -, hbounds⟩ := exists_def hF hv (hinv hu (.inr (.inl huse))) hu huse
    rw [(hiff b).mp hd]
    exact hbounds
  have hin : F.LiveIn v b → i.Contains ((buildBlockLayout F.toCfg).blockInfo b) := by
    intro hlive
    obtain ⟨u, hu, huse⟩ := liveIn_exists_use hlive hb
    have h := hinv hu (.inr (.inl huse))
    obtain ⟨d, hiff, hdo, hdL, hdf, -⟩ := exists_def hF hv h hu huse
    obtain ⟨w, hw, hdom, hwd, -, hr⟩ := liveIn_way hF hv h hiff hdo hb hlive
    rw [blockInfo_eq_place hdo] at hdf
    rw [blockInfo_eq_place hbo]
    exact live_bounds h.common.lt hdL hdf hw hdom hwd (blockInfo_lt hbo) hr
  rcases hl with hd | hu | hlive | ⟨c, he, hlive⟩
  · rcases hd with hinst | hp
    · exact hocc (.inl hinst)
    · exact hdef (.inr hp) (hphi hp)
  · exact hocc (.inr (.inl hu))
  · exact hin hlive
  · by_cases hd : F.DefIn v b
    · exact hdef hd (liveIn_exists_use hlive (hb.tail he))
    · exact hin (.succ hd he hlive)

/-! A deeper loop, block 3, that is laid out before the loop of block 4: visited second, it is taken to be
inside, and block 5 is not covered. The use at the end of block 4 is visited first, for the phi of block 1. -/

/-- Value 0 is defined in a loop before the one that it is used in. -/
def deepBefore : Func (Fin 7) (Fin 3) where
  curBlocks := [0, 1, 2, 3, 4, 5, 6]
  curEntryBlock := 0
  blockSuccs b := match b with
    | 0 => [1]
    | 1 => [2]
    | 2 => [3]
    | 3 => [3, 2, 4]
    | 4 => [5, 1, 6]
    | 5 => [4]
    | 6 => []
  nodup := by decide
  entry_first := rfl
  succs_mem := by decide
  entry_no_pred := by decide
  curArgs := []
  blockPhis b := if b = 1 then [⟨1, [(0, 2), (4, 0)]⟩] else []
  blockInsts b := if b = 3 then [⟨[0], []⟩] else []
  valLocalIdx v := v
  valIgnore v := v == 2
  livenessVisitArgs := false

/-- A phi that is not used. -/
def unusedPhi : Func (Fin 2) (Fin 2) where
  curBlocks := [0, 1]
  curEntryBlock := 0
  blockSuccs b := if b = 0 then [1] else []
  nodup := by decide
  entry_first := rfl
  succs_mem := by decide
  entry_no_pred := by decide
  curArgs := []
  blockPhis b := if b = 1 then [⟨0, [(0, 1)]⟩] else []
  blockInsts _ := []
  valLocalIdx v := v
  valIgnore v := v == 1
  livenessVisitArgs := false

section
variable [Fintype B] (F : Func B V) (v : V) (b : B)

instance : Decidable (F.InstDef v b) := inferInstanceAs (Decidable (_ ∨ _))
instance : Decidable (F.PhiDef v b) := inferInstanceAs (Decidable (∃ φ ∈ _, _))
instance : Decidable (F.DefIn v b) := inferInstanceAs (Decidable (_ ∨ _))
instance : Decidable (F.UseIn v b) := inferInstanceAs (Decidable (_ ∨ _))
instance (c : B) : Decidable (F.Edge b c) := inferInstanceAs (Decidable (_ ∈ _))
instance : Decidable (F.Reachable b) := decidable_of_iff _ mem_out_iff
instance (i : LivenessInfo) (p : ℕ) : Decidable (i.Contains p) := inferInstanceAs (Decidable (_ ∧ _))

end

theorem deepBefore_ssa : deepBefore.Ssa where
  valLocalIdx_inj v w _ _ h := Fin.ext h
  def_unique := by decide
  exists_def := by decide
  dominates v d u hv hd hr hu := by
    obtain ⟨rfl, rfl⟩ : d = 3 ∧ u = 4 := by
      revert v d u
      decide
    -- without block 3 only the blocks before it are reached
    have hclosed : ∀ x y : Fin 7, x < 3 → deepBefore.Edge x y → y ≠ 3 → y < 3 := by decide
    refine dominates_iff.mpr (.inr fun hr => ?_)
    exact absurd (hr.closed (T := {x | x < 3}) hclosed (by decide)) (by decide)
  phi_entry := rfl
  phi_slot := by decide
  phi_pred := by decide

theorem unusedPhi_ssa : unusedPhi.Ssa where
  valLocalIdx_inj v w _ _ h := Fin.ext h
  def_unique := by decide
  exists_def := by decide
  dominates v d u hv hd hr hu := by
    exfalso
    revert v d u
    decide
  phi_entry := rfl
  phi_slot := by decide
  phi_pred := by decide

/-- A value can be live outside its interval: at the visit of a deeper loop that is laid out before, and at
the block of a phi that is not used. -/
theorem live_outside_interval :
    (deepBefore.Ssa ∧ (∀ b, deepBefore.Reachable b) ∧ deepBefore.valIgnore 0 = false ∧ deepBefore.LiveIn 0 5 ∧
      ¬ ((switchFunc deepBefore .init).livenessInfo 0).Contains
        ((switchFunc deepBefore .init).layout.blockInfo 5)) ∧
    unusedPhi.Ssa ∧ (∀ b, unusedPhi.Reachable b) ∧ unusedPhi.valIgnore 0 = false ∧ unusedPhi.DefIn 0 1 ∧
      ¬ ((switchFunc unusedPhi .init).livenessInfo 0).Contains
        ((switchFunc unusedPhi .init).layout.blockInfo 1) := by
  refine ⟨⟨deepBefore_ssa, by decide +kernel, rfl, ?_, by decide +kernel⟩,
    unusedPhi_ssa, by decide +kernel, rfl,
    by decide, by decide +kernel⟩
  exact .succ (by decide) (c := 4) (by decide) (.use (by decide) (by decide))

/-- Value 0 is defined in the entry and used in a loop. -/
def usedInLoop : Func (Fin 3) (Fin 1) where
  curBlocks := [0, 1, 2]
  curEntryBlock := 0
  blockSuccs b := match b with
    | 0 => [1]
    | 1 => [1, 2]
    | 2 => []
  nodup := by decide
  entry_first := rfl
  succs_mem := by decide
  entry_no_pred := by decide
  curArgs := []
  blockPhis _ := []
  blockInsts b := match b with
    | 0 => [⟨[0], []⟩]
    | 1 => [⟨[], [0]⟩]
    | 2 => []
  valLocalIdx v := v
  valIgnore _ := false
  livenessVisitArgs := false

theorem usedInLoop_ssa : usedInLoop.Ssa where
  valLocalIdx_inj v w _ _ h := Fin.ext h
  def_unique := by decide
  exists_def := by decide
  dominates v d u hv hd hr hu := by
    obtain rfl : d = 0 := by
      revert v d u
      decide
    exact root_dominates 0 u
  phi_entry := rfl
  phi_slot := by decide
  phi_pred := by decide

theorem usedInLoop_straight : (buildBlockLayout usedInLoop.toCfg).Straight
    (valVisits usedInLoop (buildBlockLayout usedInLoop.toCfg) 0) := by
  have hvisits : valVisits usedInLoop (buildBlockLayout usedInLoop.toCfg) 0 = [0, 1] := by decide
  rw [hvisits]
  rintro pre p post heq hne C hC -
  obtain ⟨rfl, rfl⟩ : pre = [0] ∧ p = 1 := by
    rcases pre with - | ⟨q, - | ⟨r, pre⟩⟩
    · exact absurd rfl hne
    · simp_all
    · simp at heq
  -- the common loop of the first place is the root
  have hroot : (buildBlockLayout usedInLoop.toCfg).blockLoopMap 0 = 0 := by decide
  have hu := hC.1 0 List.mem_cons_self
  rw [hroot] at hu
  rcases ReflTransGen.cases_head hu with rfl | ⟨c, ⟨h0, -⟩, -⟩
  · decide
  · exact absurd rfl h0

/-- At a value that is used in a loop: it is live out of the loop's block, which is in the interval. -/
theorem switchFunc_interval_usedInLoop :
    ((switchFunc usedInLoop .init).livenessInfo 0).Contains
      ((switchFunc usedInLoop .init).layout.blockInfo 1) :=
  switchFunc_interval usedInLoop_ssa .init (v := 0) rfl usedInLoop_straight (b := 1)
    (by decide +kernel) (.inr (.inl (by decide))) (fun h => absurd h (by decide))

/-- **When `last_full` is right.** It is set for a value that is live out of the last block of its interval,
unless that block is visited first while all visits are inside its innermost loop, and a later visit is
outside. -/
theorem switchFunc_lastFull (hF : F.Ssa) (t : LivenessTable) (hv : F.valIgnore v = false)
    (hs : (buildBlockLayout F.toCfg).Straight (valVisits F (buildBlockLayout F.toCfg) v)) :
    (∀ b, F.Reachable b → F.LiveOut v b →
      (switchFunc F t).layout.blockInfo b = ((switchFunc F t).livenessInfo (F.valLocalIdx v)).last →
      ((switchFunc F t).livenessInfo (F.valLocalIdx v)).lastFull = true) ↔
    ∀ b, F.Reachable b → F.LiveOut v b →
      (buildBlockLayout F.toCfg).EndsAt (valVisits F (buildBlockLayout F.toCfg) v)
        ((buildBlockLayout F.toCfg).blockInfo b) →
      (buildBlockLayout F.toCfg).FirstInside (valVisits F (buildBlockLayout F.toCfg) v)
        ((buildBlockLayout F.toCfg).blockInfo b) →
      ∀ p ∈ valVisits F (buildBlockLayout F.toCfg) v,
        (buildBlockLayout F.toCfg).Under ((buildBlockLayout F.toCfg).blockLoopMap p)
          ((buildBlockLayout F.toCfg).blockLoopMap ((buildBlockLayout F.toCfg).blockInfo b)) := by
  have hinfo : (switchFunc F t).layout.blockInfo = (buildBlockLayout F.toCfg).blockInfo := rfl
  rw [hinfo]
  generalize hi : (switchFunc F t).livenessInfo (F.valLocalIdx v) = i
  have hinv : ∀ {c}, F.Reachable c → F.LiveIn v c → ∃ u, F.Reachable u ∧ F.UseIn v u ∧
      VisitInv (blockGraph F.toCfg) (nodeVisits F v) i := by
    intro c hc hlive
    obtain ⟨u, hu, huse⟩ := liveIn_exists_use hlive hc
    exact ⟨u, hu, huse, hi ▸ livenessInfo_inv hF hv t hs hu (.inr (.inl huse))⟩
  rw [← map_nodeVisits hF]
  refine forall₃_congr fun b hb hl => ?_
  obtain ⟨c, he, hlive⟩ := hl
  obtain ⟨u, hu, huse, h⟩ := hinv (hb.tail he) hlive
  have hbo := mem_out_iff.mpr hb
  have hbn := blockInfo_lt hbo
  rw [blockInfo_eq_place hbo, firstInside_map (nodeVisits_lt hF) hbn]
  constructor
  · intro hfull hends hfirst
    rw [endsAt_map (nodeVisits_lt hF) h hfirst.mem] at hends
    exact absurd (hfull hends) (by rw [h.full.mpr ⟨_, hends, hfirst⟩]; exact Bool.false_ne_true)
  · intro hinside hlast
    by_contra hfull
    obtain ⟨m, hm, hfirst⟩ := h.full.mp (by simpa using hfull)
    have hmn := nodeVisits_lt hF m hfirst.mem
    obtain rfl := place_inj hmn hbn (hm.trans hlast.symm)
    have hall := hinside ((endsAt_map (nodeVisits_lt hF) h hfirst.mem).mpr hm) hfirst
    -- the last block is in the common loop itself
    have hsub : ∀ x ∈ nodeVisits F v, x ∈ (loopTree (blockGraph F.toCfg)).blocks
        ((loopTree (blockGraph F.toCfg)).loopOf ((buildRpoBlockOrder F.toCfg).blockInfo b)) := by
      intro x hx
      rw [← under_place (nodeVisits_lt hF x hx), ← blockLoopMap_place hbn]
      exact hall _ (List.mem_map_of_mem hx)
    have hL : (loopTree (blockGraph F.toCfg)).loopOf ((buildRpoBlockOrder F.toCfg).blockInfo b) =
        i.lowestCommonLoop := by
      have h1 := (h.common.least _ hsub).le h.common.lt
      have h2 := (LoopTree.mem_blocks.mp (h.common.mem _ hfirst.mem)).2.le
        ((loopTree (blockGraph F.toCfg)).loopOf_lt _ hbn)
      exact le_antisymm h1 h2
    obtain ⟨d, hiff, hdo, hdL, -, -⟩ := exists_def hF hv h hu huse
    obtain ⟨w, hw, hdom, hwd, hcd, hr⟩ := liveIn_way hF hv h hiff hdo (hb.tail he) hlive
    exact not_live_out h.common.lt hdL hbn hL hm hw hdom hwd (edge_blockInfo hbo he) hcd hr

/-- A loop whose last block, which is a loop too, is visited first, for the phi of the head. -/
def lastBlockFirst : Func (Fin 3) (Fin 3) where
  curBlocks := [0, 1, 2]
  curEntryBlock := 0
  blockSuccs b := match b with
    | 0 => [1]
    | 1 => [2, 1]
    | 2 => [1, 2]
  nodup := by decide
  entry_first := rfl
  succs_mem := by decide
  entry_no_pred := by decide
  curArgs := []
  blockPhis b := if b = 1 then [⟨1, [(0, 2), (1, 2), (2, 0)]⟩] else []
  blockInsts b := if b = 1 then [⟨[0], []⟩] else []
  valLocalIdx v := v
  valIgnore v := v == 2
  livenessVisitArgs := false

theorem lastBlockFirst_ssa : lastBlockFirst.Ssa where
  valLocalIdx_inj v w _ _ h := Fin.ext h
  def_unique := by decide
  exists_def := by decide
  dominates v d u hv hd hr hu := by
    obtain ⟨rfl, rfl⟩ : d = 1 ∧ u = 2 := by
      revert v d u
      decide
    -- without block 1 only the entry is reached
    have hclosed : ∀ x y : Fin 3, x < 1 → lastBlockFirst.Edge x y → y ≠ 1 → y < 1 := by decide
    refine dominates_iff.mpr (.inr fun hr => ?_)
    exact absurd (hr.closed (T := {x | x < 1}) hclosed (by decide)) (by decide)
  phi_entry := rfl
  phi_slot := by decide
  phi_pred := by decide

/-- `last_full` is not set, though the value is live out of the last block. -/
theorem lastFull_unset : lastBlockFirst.Ssa ∧ lastBlockFirst.Reachable 2 ∧
    lastBlockFirst.valIgnore 0 = false ∧
    lastBlockFirst.LiveOut 0 2 ∧
    (switchFunc lastBlockFirst .init).layout.blockInfo 2 =
      ((switchFunc lastBlockFirst .init).livenessInfo 0).last ∧
    ((switchFunc lastBlockFirst .init).livenessInfo 0).lastFull = false :=
  ⟨lastBlockFirst_ssa, by decide +kernel, rfl,
    ⟨2, by decide, .use (by decide) (by decide)⟩, by decide +kernel,
    by decide +kernel⟩

/-- At a value that is used in a loop: it is live out of the loop, and `last_full` is set. -/
theorem switchFunc_lastFull_usedInLoop : ((switchFunc usedInLoop .init).livenessInfo 0).lastFull = true := by
  refine (switchFunc_lastFull usedInLoop_ssa .init (v := 0) rfl usedInLoop_straight).mpr ?_ 1
    (by decide +kernel) ⟨1, by decide, .use (by decide) (by decide)⟩ (by decide +kernel)
  have hvisits : valVisits usedInLoop (buildBlockLayout usedInLoop.toCfg) 0 = [0, 1] := by decide +kernel
  have hroot : (buildBlockLayout usedInLoop.toCfg).blockLoopMap 0 = 0 := by decide +kernel
  rw [hvisits]
  rintro b - - - ⟨pre, post, heq, hpre⟩ p hp
  -- the block is in the root loop, which everything is in
  have hb :
    (buildBlockLayout usedInLoop.toCfg).blockLoopMap ((buildBlockLayout usedInLoop.toCfg).blockInfo b) =
    0 := by
    cases pre with
    | nil =>
      rw [← (List.cons_eq_cons.mp heq).1]
      exact hroot
    | cons q pre =>
      have hu := hpre q List.mem_cons_self
      rw [← (List.cons_eq_cons.mp heq).1, hroot] at hu
      rcases ReflTransGen.cases_head hu with h | ⟨c, ⟨h0, -⟩, -⟩
      · exact h.symm
      · exact absurd rfl h0
  rw [hb]
  rcases List.mem_cons.mp hp with rfl | hp
  · rw [hroot]
    exact .refl
  · rw [List.mem_singleton.mp hp]
    exact .single (by decide +kernel)

end

end Tpde.Analyzer
