import Tpde.Analyzer.BlockOrder
import Tpde.Library.DepthFirst

/-!
# The block order as the search of a graph

`Analyzer::build_rpo_block_order` against a depth-first search that says nothing of a stack
(`DepthFirst.Search`): the successors of a block are taken from the last in the function to the
first, and the order is the reverse of the one in which the search leaves the blocks. The two low
bits of a block's word count the edges into it that start at a searched block, up to two.
-/

namespace Tpde.Analyzer

open FlowGraph DepthFirst

variable {B : Type} [DecidableEq B] (A : Cfg B)

/-- The number of a block in the function. -/
def blockNumber (b : B) : ℕ := A.curBlocks.idxOf b

/-- The successors in the order in which they are searched: the last of the function first. -/
def searchKids (b : B) : List B := (sortChildren (blockNumber A) (A.blockSuccs b)).reverse

/-- How many edges enter `b` from the blocks of `vis`, with multiplicity. -/
def edgesFrom (vis : List B) (b : B) : ℕ := (vis.map fun g => (A.blockSuccs g).count b).sum

open Classical in
/-- How many edges enter `b` from blocks that are reached from the entry, with multiplicity. -/
noncomputable def incomingEdges (b : B) : ℕ :=
  edgesFrom A (A.curBlocks.filter fun g => Reach A.Edge A.curEntryBlock g) b

/-- `block_has_multiple_incoming`. -/
def blockHasMultipleIncoming (s : RpoState B) (b : B) : Bool := (s.blockInfo2 b).incoming == 2

variable {A}

/-! ### The children -/

omit [DecidableEq B] in
/-- Sorting by two keys that agree on a part of a list, and tell its members apart. -/
theorem sortChildren_filter {num info : B → ℕ} {l : List B} {p : B → Bool}
    (hinj : ∀ a ∈ l, ∀ b ∈ l, num a = num b → a = b) (hinfo : ∀ b ∈ l, p b = true → info b = num b) :
    sortChildren info (l.filter p) = (sortChildren num l).filter p := by
  have hperm : (sortChildren info (l.filter p)).Perm ((sortChildren num l).filter p) :=
    (List.perm_insertionSort _ _).trans ((List.perm_insertionSort _ l).symm.filter p)
  have hmem : ∀ b ∈ sortChildren info (l.filter p), b ∈ l ∧ p b = true := by
    intro b hb
    rwa [mem_sortChildren, List.mem_filter] at hb
  have htot : Std.Total (fun a b : B => info a ≤ info b) := ⟨fun a b => le_total _ _⟩
  have htr : IsTrans B (fun a b : B => info a ≤ info b) := ⟨fun a b c => le_trans⟩
  have htot' : Std.Total (fun a b : B => num a ≤ num b) := ⟨fun a b => le_total _ _⟩
  have htr' : IsTrans B (fun a b : B => num a ≤ num b) := ⟨fun a b c => le_trans⟩
  have hs₁ : (sortChildren info (l.filter p)).Pairwise fun a b => num a ≤ num b := by
    refine (List.pairwise_insertionSort _ (l.filter p)).imp_of_mem fun {a b} ha hb h => ?_
    obtain ⟨hal, hap⟩ := hmem a ha
    obtain ⟨hbl, hbp⟩ := hmem b hb
    rwa [hinfo a hal hap, hinfo b hbl hbp] at h
  have hs₂ : ((sortChildren num l).filter p).Pairwise fun a b => num a ≤ num b :=
    (List.pairwise_insertionSort _ l).filter p
  refine hperm.eq_of_pairwise (fun a b ha hb hab hba => ?_) hs₁ hs₂
  have hb' := hmem b (hperm.mem_iff.mpr hb)
  exact hinj a (hmem a ha).1 b hb'.1 (le_antisymm hab hba)

/-- What is pushed: the successors that are neither visited nor on the list. -/
theorem foldl_pushSucc_snd (succs : List B) (st : (B → BlockInfo2) × List B) :
    (succs.foldl pushSucc st).2 =
      st.2 ++ succs.filter fun b => !(st.1 b).visited && !(st.1 b).onRpo := by
  induction succs generalizing st with
  | nil => simp
  | cons c succs ih =>
    have hflag : ∀ b, ((pushSucc st c).1 b).visited = (st.1 b).visited ∧
        ((pushSucc st c).1 b).onRpo = (st.1 b).onRpo := by
      intro b
      have h := foldl_pushSucc [c] st
      exact ⟨h.1 b, h.2.1 b⟩
    rw [List.foldl_cons, ih]
    simp only [(hflag _).1, (hflag _).2]
    unfold pushSucc
    simp only [Function.update_self, BlockInfo2.addIncoming_visited, BlockInfo2.addIncoming_onRpo]
    cases hv : (st.1 c).visited <;> cases ho : (st.1 c).onRpo <;> simp [hv, ho]

/-- An edge is counted for each occurrence of a successor, up to two. -/
theorem foldl_pushSucc_incoming (succs : List B) (st : (B → BlockInfo2) × List B) (n : B → ℕ)
    (h : ∀ b, (st.1 b).incoming = min 2 (n b)) (b : B) :
    ((succs.foldl pushSucc st).1 b).incoming = min 2 (n b + succs.count b) := by
  induction succs generalizing st n with
  | nil => simpa using h b
  | cons c succs ih =>
    have hfst : (pushSucc st c).1 = Function.update st.1 c (st.1 c).addIncoming := by
      unfold pushSucc
      dsimp only
      split_ifs <;> rfl
    rw [List.foldl_cons, ih (pushSucc st c) (fun d => n d + if c = d then 1 else 0)]
    · rw [List.count_cons]
      simp only [beq_iff_eq]
      congr 1
      omega
    · intro d
      rw [hfst]
      by_cases hd : c = d
      · subst hd
        have := h c
        simp only [Function.update_self, BlockInfo2.addIncoming, if_true]
        split_ifs with h0 h1
        · dsimp only
          omega
        · omega
        · dsimp only
          omega
      · rw [Function.update_of_ne (Ne.symm hd), h d, if_neg hd, add_zero]

/-! ### The search -/

/-- What a round keeps of the search: `post` has been left, `vis` is visited. -/
structure OrderInv (A : Cfg B) (s : RpoState B) (path vis post : List B) : Prop where
  inv : Inv A s path
  zip : Zip (searchKids A) A.curEntryBlock path s.stack vis post
  mem_vis : ∀ b, b ∈ vis ↔ (s.blockInfo2 b).visited = true
  vis_nodup : vis.Nodup
  out : s.out = post.reverse
  info : ∀ b, (s.blockInfo2 b).onRpo = false → s.blockInfo b = blockNumber A b
  incoming : ∀ b, (s.blockInfo2 b).incoming = min 2 (edgesFrom A vis b)

theorem orderInv_init : OrderInv A (RpoState.init A) [] [] [] where
  inv := inv_init
  zip := Zip.init
  mem_vis b := by simp [RpoState.init, BlockInfo2.zero]
  vis_nodup := List.nodup_nil
  out := rfl
  info b _ := rfl
  incoming b := rfl

/-- A block that is being searched stands on top only when nothing is pending above it. -/
theorem OrderInv.not_path {s : RpoState B} {path vis post : List B} (h : OrderInv A s path vis post) {b : B}
    (hb : (s.blockInfo2 b).onRpo = true) : b ∉ path := by
  intro hp
  have := ((h.inv.path_iff b).mp hp).2
  rw [hb] at this
  exact absurd this (by decide)

theorem OrderInv.drop {s : RpoState B} {path vis post stack : List B} {c : B} (h : OrderInv A s path vis post)
    (hs : s.stack = c :: stack) (hr : (s.blockInfo2 c).onRpo = true) :
    OrderInv A { s with stack := stack } path vis post where
  inv := h.inv.drop hs hr
  zip := by
    have hz := h.zip
    rw [hs] at hz
    exact hz.skip ((h.mem_vis c).mpr (h.inv.out_visited c ((h.inv.out_iff c).mpr hr))) (h.not_path hr)
  mem_vis := h.mem_vis
  vis_nodup := h.vis_nodup
  out := h.out
  info := h.info
  incoming := h.incoming

theorem OrderInv.place {s : RpoState B} {path vis post stack : List B} {c : B}
    (h : OrderInv A s path vis post)
    (hs : s.stack = c :: stack) (hr : (s.blockInfo2 c).onRpo = false) (hv : (s.blockInfo2 c).visited = true) :
    ∃ path', OrderInv A
      { stack := stack
        blockInfo := Function.update s.blockInfo c s.rpoIdx.toNat
        blockInfo2 := Function.update s.blockInfo2 c (s.blockInfo2 c).markOnRpo
        out := c :: s.out
        rpoIdx := s.rpoIdx - 1 } path' vis (post ++ [c]) := by
  obtain ⟨path', rfl, hinv⟩ := h.inv.place hs hr hv
  have hword : ∀ b, (Function.update s.blockInfo2 c (s.blockInfo2 c).markOnRpo b).visited =
    (s.blockInfo2 b).visited ∧
      (Function.update s.blockInfo2 c (s.blockInfo2 c).markOnRpo b).incoming = (s.blockInfo2 b).incoming := by
    intro b
    by_cases hb : b = c
    · subst hb
      simp [BlockInfo2.markOnRpo]
    · rw [Function.update_of_ne hb]
      exact ⟨rfl, rfl⟩
  refine ⟨path', hinv, ?_, fun b => ?_, h.vis_nodup, ?_, fun b hb => ?_, fun b => ?_⟩
  · have hz := h.zip
    rw [hs] at hz
    exact hz.leave (List.nodup_cons.mp h.inv.path_nodup).1
  · rw [(hword b).1]
    exact h.mem_vis b
  · simp [h.out]
  · by_cases hbc : b = c
    · subst hbc
      simp at hb
    · dsimp only at hb ⊢
      rw [Function.update_of_ne hbc] at hb ⊢
      exact h.info b hb
  · rw [(hword b).2]
    exact h.incoming b

theorem OrderInv.enter {s : RpoState B} {path vis post stack : List B} {c : B}
    (h : OrderInv A s path vis post)
    (hs : s.stack = c :: stack) (hr : (s.blockInfo2 c).onRpo = false)
    (hv : (s.blockInfo2 c).visited = false) :
    OrderInv A (rpoStep A s) (c :: path) (c :: vis) post := by
  have hstep := rpoStep_enter (A := A) hs hr hv
  have hcm := h.inv.mem c (.inl (hs ▸ List.mem_cons_self))
  have hcvis : c ∉ vis := fun hc => by simp [(h.mem_vis c).mp hc] at hv
  have hword : ∀ b, (Function.update s.blockInfo2 c (s.blockInfo2 c).markVisited b).visited = true ↔
    b ∈ c :: vis := by
    intro b
    by_cases hb : b = c
    · subst hb
      simp
    · rw [Function.update_of_ne hb, ← h.mem_vis b, List.mem_cons]
      simp [hb]
  have honrpo : ∀ b, (Function.update s.blockInfo2 c (s.blockInfo2 c).markVisited b).onRpo =
    (s.blockInfo2 b).onRpo := by
    intro b
    by_cases hb : b = c
    · subst hb
      simp
    · rw [Function.update_of_ne hb]
  -- nothing that is not visited is on the list
  have hfilter : ((A.blockSuccs c).foldl pushSucc
      (Function.update s.blockInfo2 c (s.blockInfo2 c).markVisited, [])).2 =
        (A.blockSuccs c).filter (· ∉ c :: vis) := by
    rw [foldl_pushSucc_snd, List.nil_append]
    apply List.filter_congr
    intro b _
    dsimp only
    rw [honrpo b]
    cases hb : (Function.update s.blockInfo2 c (s.blockInfo2 c).markVisited b).visited with
    | true =>
      have := (hword b).mp hb
      simp [this]
    | false =>
      have hnot : b ∉ c :: vis := fun hm => by simp [(hword b).mpr hm] at hb
      cases ho : (s.blockInfo2 b).onRpo with
      | false => simp [hnot]
      | true =>
        exact absurd (List.mem_cons_of_mem _ ((h.mem_vis b).mpr
          (h.inv.out_visited b ((h.inv.out_iff b).mpr ho)))) hnot
  have hsort : (sortChildren s.blockInfo ((A.blockSuccs c).filter (· ∉ c :: vis))).reverse =
      (searchKids A c).filter (· ∉ c :: vis) := by
    rw [searchKids, List.filter_reverse, sortChildren_filter]
    · intro a ha b hb hab
      exact (List.idxOf_inj (A.succs_mem c hcm.1 a ha)).mp hab
    · intro b _ hb
      apply h.info
      by_contra ho
      have := (h.mem_vis b).mpr (h.inv.out_visited b ((h.inv.out_iff b).mpr (by simpa using ho)))
      simp [this] at hb
  refine ⟨h.inv.enter_step hs hr hv, ?_, fun b => ?_, List.nodup_cons.mpr ⟨hcvis, h.vis_nodup⟩, ?_,
    fun b hb => ?_, fun b => ?_⟩
  · have hz := h.zip
    rw [hs] at hz
    rw [hstep]
    dsimp only
    rw [hfilter, hsort, hs]
    exact hz.enter hcvis
  · rw [hstep, (foldl_pushSucc _ _).1]
    exact (hword b).symm
  · rw [hstep]
    exact h.out
  · rw [hstep] at hb ⊢
    rw [(foldl_pushSucc _ _).2.1] at hb
    exact h.info b (by rw [← honrpo b]; exact hb)
  · rw [hstep]
    dsimp only
    rw [foldl_pushSucc_incoming _ _ (edgesFrom A vis)]
    · rw [edgesFrom, edgesFrom, List.map_cons, List.sum_cons, add_comm]
    · intro d
      by_cases hd : d = c
      · subst hd
        simpa [BlockInfo2.markVisited] using h.incoming d
      · dsimp only
        rw [Function.update_of_ne hd]
        exact h.incoming d

/-- A round keeps the invariant of the search. -/
theorem rpoStep_orderInv (s : RpoState B) (h : ∃ path vis post, OrderInv A s path vis post)
    (hc : (!s.stack.isEmpty) = true) : ∃ path vis post, OrderInv A (rpoStep A s) path vis post := by
  obtain ⟨path, vis, post, h⟩ := h
  cases hs : s.stack with
  | nil => simp [hs] at hc
  | cons c stack =>
    cases hr : (s.blockInfo2 c).onRpo with
    | true =>
      have := h.drop hs hr
      unfold rpoStep
      rw [hs]
      simp only [hr, if_true]
      exact ⟨path, vis, post, this⟩
    | false =>
      cases hv : (s.blockInfo2 c).visited with
      | true =>
        obtain ⟨path', h'⟩ := h.place hs hr hv
        unfold rpoStep
        rw [hs]
        simp only [hr, hv, Bool.false_eq_true, if_false, if_true]
        exact ⟨path', vis, post ++ [c], h'⟩
      | false => exact ⟨c :: path, c :: vis, post, h.enter hs hr hv⟩

/-- The loop ends with the whole search done. -/
theorem rpoLoop_search : ∃ vis post, OrderInv A (rpoLoop A) [] vis post ∧ (rpoLoop A).stack = [] := by
  obtain ⟨path, vis, post, h⟩ : ∃ path vis post, OrderInv A (rpoLoop A) path vis post :=
    While.run_inv rpoStep_orderInv _ _ ⟨[], [], [], orderInv_init⟩
  have hend : (!(rpoLoop A).stack.isEmpty) = false :=
    While.run_end rpoStep_inv (rpoVariant A) rpoStep_variant _ _ ⟨[], inv_init⟩ rpoFuel_eq.le
  have hs : (rpoLoop A).stack = [] := by simpa using hend
  have hstk := h.inv.stk
  rw [hs] at hstk
  cases hstk with
  | nil => exact ⟨vis, post, h, hs⟩

theorem setInfos_of_not_mem {out : List B} (val : ℕ → ℕ) {info : B → ℕ} {b : B} (h : b ∉ out) :
    setInfos out val info b = info b := by
  have key : ∀ (l : List (B × ℕ)) (f : B → ℕ), (∀ q ∈ l, q.1 ≠ b) →
      l.foldl (fun info bi => Function.update info bi.1 (val bi.2)) f b = f b := by
    intro l
    induction l with
    | nil => simp
    | cons q l ih =>
      intro f hq
      rw [List.foldl_cons, ih _ fun r hr => hq r (by simp [hr]), Function.update_of_ne (hq q (by simp)).symm]
  exact key _ _ fun q hq hqb => h (hqb ▸ List.fst_mem_of_mem_zipIdx hq)

/-- The fields of the result but the numbers are those of the loop. -/
theorem buildRpoBlockOrder_fields :
    (buildRpoBlockOrder A).out = (rpoLoop A).out ∧
      (buildRpoBlockOrder A).blockInfo2 = (rpoLoop A).blockInfo2 := by
  unfold buildRpoBlockOrder
  dsimp only
  split_ifs <;> exact ⟨rfl, rfl⟩

/-- A block that is not on the list keeps its number in the function. -/
theorem blockInfo_of_not_mem {b : B} (h : b ∉ (buildRpoBlockOrder A).out) :
    (buildRpoBlockOrder A).blockInfo b = blockNumber A b := by
  obtain ⟨vis, post, hs, -⟩ := rpoLoop_search (A := A)
  rw [buildRpoBlockOrder_fields.1] at h
  have hinfo : (rpoLoop A).blockInfo b = blockNumber A b := by
    apply hs.info
    by_contra hr
    exact h ((hs.inv.out_iff b).mpr (by simpa using hr))
  unfold buildRpoBlockOrder
  dsimp only
  split_ifs
  · exact (setInfos_of_not_mem id h).trans hinfo
  · exact hinfo

/-- The blocks that are counted as sources of edges are those that are reached. -/
theorem edgesFrom_vis {vis post : List B} (h : OrderInv A (rpoLoop A) [] vis post) (b : B) :
    edgesFrom A vis b = incomingEdges A b := by
  classical
  have hperm : vis.Perm (A.curBlocks.filter fun g => Reach A.Edge A.curEntryBlock g) := by
    rw [List.perm_ext_iff_of_nodup h.vis_nodup (A.nodup.filter _)]
    intro g
    have hout : g ∈ vis ↔ g ∈ (rpoLoop A).out := by
      rw [h.mem_vis, h.inv.out_iff]
      constructor
      · intro hv
        by_contra hr
        exact List.not_mem_nil ((h.inv.path_iff g).mpr ⟨hv, by simpa using hr⟩)
      · exact fun hr => h.inv.out_visited g ((h.inv.out_iff g).mpr hr)
    rw [hout, ← buildRpoBlockOrder_fields.1, buildRpoBlockOrder_spec.1 g, List.mem_filter]
    refine ⟨fun hg => ⟨?_, by simpa using hg⟩, fun hg => by simpa using hg.2⟩
    have := (buildRpoBlockOrder_spec.1 g).mpr hg
    rw [buildRpoBlockOrder_fields.1] at this
    exact (h.inv.mem g (.inr (h.inv.out_visited g this))).1
  unfold incomingEdges edgesFrom
  exact (hperm.map _).sum_eq

variable (A)

/-- **The block order** holds each block that is reached from the entry once, in the reverse of the order
in which a depth-first search over the successor lists leaves them. A block of the order has its place as
number, a block that is not reached has its number in the function and a word that is zero, and
a block that is reached counts as one with several incoming edges if and only if at least two edges
enter it from blocks that are reached. -/
theorem buildRpoBlockOrder_search :
    (∀ b, b ∈ (buildRpoBlockOrder A).out ↔ Reach A.Edge A.curEntryBlock b) ∧
    (buildRpoBlockOrder A).out.Nodup ∧
    (∃ vis, Search (searchKids A) [] [A.curEntryBlock] vis (buildRpoBlockOrder A).out.reverse) ∧
    (∀ b, (searchKids A b).Perm (A.blockSuccs b)) ∧
    (∀ i b, (buildRpoBlockOrder A).out[i]? = some b → (buildRpoBlockOrder A).blockInfo b = i) ∧
    (∀ b, ¬ Reach A.Edge A.curEntryBlock b →
      (buildRpoBlockOrder A).blockInfo2 b = .zero ∧ (buildRpoBlockOrder A).blockInfo b = blockNumber A b) ∧
    ∀ b, Reach A.Edge A.curEntryBlock b →
      (blockHasMultipleIncoming (buildRpoBlockOrder A) b = true ↔ 2 ≤ incomingEdges A b) := by
  obtain ⟨hreach, hrpo, -, hplace⟩ := buildRpoBlockOrder_spec (A := A)
  obtain ⟨vis, post, h, hs⟩ := rpoLoop_search (A := A)
  have hz := h.zip
  rw [hs] at hz
  refine ⟨hreach, hrpo.nodup, ⟨vis, ?_⟩, fun b => ?_, hplace, fun b hb => ?_, fun b _ => ?_⟩
  · rw [buildRpoBlockOrder_fields.1, h.out, List.reverse_reverse]
    exact hz.search
  · exact (List.reverse_perm _).trans (List.perm_insertionSort _ _)
  · have hout := mt (hreach b).mp hb
    exact ⟨blockInfo2_eq_zero_iff.mpr hout, blockInfo_of_not_mem hout⟩
  · rw [blockHasMultipleIncoming, buildRpoBlockOrder_fields.2, h.incoming b, edgesFrom_vis h b, beq_iff_eq]
    omega

/-- A function with a second block that nothing leads to. -/
def deadBlock : Cfg ℕ where
  curBlocks := [0, 1]
  curEntryBlock := 0
  blockSuccs _ := []
  nodup := by decide
  entry_first := rfl
  succs_mem := by simp
  entry_no_pred := by simp

/-- The number of a block that is not reached is not zero. -/
theorem deadBlock_number : ¬ Reach deadBlock.Edge deadBlock.curEntryBlock 1 ∧
    (buildRpoBlockOrder deadBlock).blockInfo 1 ≠ 0 := by
  have hnot : ¬ Reach deadBlock.Edge deadBlock.curEntryBlock 1 := by
    intro h
    rcases h.cases_tail with h | ⟨c, -, hc⟩
    · exact absurd h (by decide)
    · simp [Cfg.Edge, deadBlock] at hc
  refine ⟨hnot, ?_⟩
  decide

end Tpde.Analyzer
