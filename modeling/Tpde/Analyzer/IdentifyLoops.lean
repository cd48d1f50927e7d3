import Mathlib
import Tpde.Analyzer.BlockOrder
import Tpde.Library.LoopTagging
import Tpde.Library.NaturalLoop
import Tpde.Library.RpoGraph

/-!
# Finding the loops

`Analyzer::identify_loops`: one depth-first search that tags every block with
the header of the innermost loop around it. The headers of a block form a
chain; an edge to a block that has been searched merges the chain of the target
into that of the source, sorted by position on the path of the search
(`tag_lhead`).
-/

namespace Tpde.Analyzer

open FlowGraph PointerForest

/-- `block_infos`, one map for each field of `BlockInfo`. -/
structure BlockInfos where
  traversed : ℕ → Bool
  selfLoop : ℕ → Bool
  dfspPos : ℕ → ℕ
  iloopHeader : ℕ → ℕ

namespace BlockInfos

/-- Nothing has been traversed. -/
def init : BlockInfos := ⟨fun _ => false, fun _ => false, fun _ => 0, fun _ => 0⟩

/-- Enter a block at a position on the path. -/
def enter (bi : BlockInfos) (b pos : ℕ) : BlockInfos :=
  { bi with traversed := Function.update bi.traversed b true, dfspPos := Function.update bi.dfspPos b pos }

/-- Take a block off the path. -/
def leave (bi : BlockInfos) (b : ℕ) : BlockInfos := { bi with dfspPos := Function.update bi.dfspPos b 0 }

/-- Note an edge from a block to itself. -/
def markSelfLoop (bi : BlockInfos) (b : ℕ) : BlockInfos :=
  { bi with selfLoop := Function.update bi.selfLoop b true }

/-- The loop of `tag_lhead`. -/
def tagLheadLoop (dfspPos : ℕ → ℕ) : ℕ → (ℕ → ℕ) → ℕ → ℕ → ℕ → ℕ
  | 0, hdr, _, _ => hdr
  | n + 1, hdr, cur1, cur2 =>
    if hdr cur1 ≠ 0 then
      let ih := hdr cur1
      if ih = cur2 then hdr
      else if dfspPos ih < dfspPos cur2 then tagLheadLoop dfspPos n (Function.update hdr cur1 cur2) cur2 ih
      else tagLheadLoop dfspPos n hdr ih cur2
    else Function.update hdr cur1 cur2

/-- `tag_lhead`. Every round lowers the sum of the two positions. -/
def tagLhead (bi : BlockInfos) (b h : ℕ) : BlockInfos :=
  if b = h ∨ h = 0 then bi
  else { bi with
    iloopHeader := tagLheadLoop bi.dfspPos (bi.dfspPos b + bi.dfspPos h + 1) bi.iloopHeader b h }

/-- Going up from a header that is not on the path to the first one that is. -/
def headerOnPath (bi : BlockInfos) : ℕ → ℕ → Option ℕ
  | 0, _ => none
  | n + 1, hIdx =>
    if bi.iloopHeader hIdx ≠ 0 then
      let hIdx := bi.iloopHeader hIdx
      if bi.dfspPos hIdx > 0 then some hIdx else headerOnPath bi n hIdx
    else none

/-- A successor that has been traversed. -/
def tagTraversed (bi : BlockInfos) (numBlocks blockIdx succIdx : ℕ) : BlockInfos :=
  if bi.dfspPos succIdx > 0 then bi.tagLhead blockIdx succIdx
  else if bi.iloopHeader succIdx ≠ 0 then
    let hIdx := bi.iloopHeader succIdx
    if bi.dfspPos hIdx > 0 then bi.tagLhead blockIdx hIdx
    else
      match bi.headerOnPath numBlocks hIdx with
      | some hIdx => bi.tagLhead blockIdx hIdx
      | none => bi
  else bi

end BlockInfos

/-- `TravState::state`: to be entered, going through the successors, back from one. -/
inductive TravPhase where
  | entry
  | succs
  | ret
  deriving DecidableEq, Repr

/-- `TravState`; `succIt` are the successors from `succ_it` to the end, as `block_info` numbers them. -/
structure TravState where
  blockIdx : ℕ
  dfspPos : ℕ
  nh : ℕ
  state : TravPhase
  succIt : List ℕ
  deriving DecidableEq, Repr

/-- The state of the search. -/
structure LoopState where
  infos : BlockInfos
  travState : List TravState

/-- The state pushed for a block. -/
def TravState.push (g : RpoGraph) (b pos : ℕ) : TravState := ⟨b, pos, 0, .entry, g.succs b⟩

/-- One round of `while (!trav_state.empty())`, cut where a case falls through. -/
def identifyStep (g : RpoGraph) (s : LoopState) : LoopState :=
  match s.travState with
  | [] => s
  | state :: rest =>
    match state.state with
    | .entry =>
      { infos := s.infos.enter state.blockIdx state.dfspPos
        travState := { state with state := .succs } :: rest }
    | .succs =>
      match state.succIt with
      | succIdx :: succIt =>
        let infos := if succIdx = state.blockIdx then s.infos.markSelfLoop state.blockIdx else s.infos
        if infos.traversed succIdx then
          { infos := infos.tagTraversed g.numBlocks state.blockIdx succIdx
            travState := { state with succIt := succIt } :: rest }
        else
          { infos := infos
            travState := .push g succIdx (state.dfspPos + 1) :: { state with state := .ret } :: rest }
      | [] =>
        let infos := s.infos.leave state.blockIdx
        match rest with
        | [] => { infos := infos, travState := [] }
        | back :: rest =>
          { infos := infos, travState := { back with nh := infos.iloopHeader state.blockIdx } :: rest }
    | .ret =>
      { infos := s.infos.tagLhead state.blockIdx state.nh
        travState := { state with state := .succs, succIt := state.succIt.tail } :: rest }

/-- The entry is pushed at position 1. -/
def LoopState.init (g : RpoGraph) : LoopState := ⟨.init, [.push g 0 1]⟩

/-- Enough rounds: each block is entered, left, and goes through each successor at most thrice. -/
def identifyFuel (g : RpoGraph) : ℕ := 1 + ∑ b ∈ Finset.range g.numBlocks, (3 * (g.succs b).length + 2)

/-- The search. -/
def identifyLoop (g : RpoGraph) : LoopState :=
  While.run (fun s => !s.travState.isEmpty) (identifyStep g) (identifyFuel g) (.init g)

/-- `loop_parent` and `loop_heads`. -/
structure Loops where
  loopParent : ℕ → ℕ
  loopHeads : ℕ → Bool

/-- What is read off the block info of `i`. -/
def Loops.read (bi : BlockInfos) (l : Loops) (i : ℕ) : Loops :=
  let l := if bi.iloopHeader i ≠ 0 then
      { loopParent := Function.update l.loopParent i (bi.iloopHeader i)
        loopHeads := Function.update l.loopHeads (bi.iloopHeader i) true }
    else l
  if bi.selfLoop i then { l with loopHeads := Function.update l.loopHeads i true } else l

/-- `identify_loops`. -/
def identifyLoops (g : RpoGraph) : Loops :=
  (List.range g.numBlocks).foldl (Loops.read (identifyLoop g).infos) ⟨fun _ => 0, fun _ => false⟩

/-! ### The pieces of a step -/

namespace BlockInfos

variable {bi : BlockInfos}

@[simp] theorem enter_traversed (b pos : ℕ) :
    (bi.enter b pos).traversed = Function.update bi.traversed b true := rfl
@[simp] theorem enter_selfLoop (b pos : ℕ) : (bi.enter b pos).selfLoop = bi.selfLoop := rfl
@[simp] theorem enter_dfspPos (b pos : ℕ) :
    (bi.enter b pos).dfspPos = Function.update bi.dfspPos b pos := rfl
@[simp] theorem enter_iloopHeader (b pos : ℕ) : (bi.enter b pos).iloopHeader = bi.iloopHeader := rfl
@[simp] theorem leave_traversed (b : ℕ) : (bi.leave b).traversed = bi.traversed := rfl
@[simp] theorem leave_selfLoop (b : ℕ) : (bi.leave b).selfLoop = bi.selfLoop := rfl
@[simp] theorem leave_dfspPos (b : ℕ) : (bi.leave b).dfspPos = Function.update bi.dfspPos b 0 := rfl
@[simp] theorem leave_iloopHeader (b : ℕ) : (bi.leave b).iloopHeader = bi.iloopHeader := rfl
@[simp] theorem markSelfLoop_traversed (b : ℕ) : (bi.markSelfLoop b).traversed = bi.traversed := rfl
@[simp] theorem markSelfLoop_selfLoop (b : ℕ) :
    (bi.markSelfLoop b).selfLoop = Function.update bi.selfLoop b true := rfl
@[simp] theorem markSelfLoop_dfspPos (b : ℕ) : (bi.markSelfLoop b).dfspPos = bi.dfspPos := rfl
@[simp] theorem markSelfLoop_iloopHeader (b : ℕ) : (bi.markSelfLoop b).iloopHeader = bi.iloopHeader := rfl

/-- Tagging changes headers only. -/
theorem tagLhead_frame (b h : ℕ) : (bi.tagLhead b h).traversed = bi.traversed ∧
    (bi.tagLhead b h).selfLoop = bi.selfLoop ∧ (bi.tagLhead b h).dfspPos = bi.dfspPos := by
  unfold tagLhead
  split_ifs <;> exact ⟨rfl, rfl, rfl⟩

theorem tagTraversed_frame (n b c : ℕ) : (bi.tagTraversed n b c).traversed = bi.traversed ∧
    (bi.tagTraversed n b c).selfLoop = bi.selfLoop ∧ (bi.tagTraversed n b c).dfspPos = bi.dfspPos := by
  unfold tagTraversed
  dsimp only
  split_ifs
  · exact tagLhead_frame ..
  · exact tagLhead_frame ..
  · split
    · exact tagLhead_frame ..
    · exact ⟨rfl, rfl, rfl⟩
  · exact ⟨rfl, rfl, rfl⟩

/-- The headers that tagging leaves depend on positions and headers only. -/
theorem tagLhead_congr {bi' : BlockInfos} (hp : bi'.dfspPos = bi.dfspPos)
    (hh : bi'.iloopHeader = bi.iloopHeader)
    (b h : ℕ) : (bi'.tagLhead b h).iloopHeader = (bi.tagLhead b h).iloopHeader := by
  unfold tagLhead
  split_ifs
  · exact hh
  · simp [hp, hh]

theorem headerOnPath_congr {bi' : BlockInfos} (hp : bi'.dfspPos = bi.dfspPos)
    (hh : bi'.iloopHeader = bi.iloopHeader) (n h : ℕ) : bi'.headerOnPath n h = bi.headerOnPath n h := by
  induction n generalizing h with
  | zero => rfl
  | succ n ih => simp [headerOnPath, hp, hh, ih]

theorem tagTraversed_congr {bi' : BlockInfos} (hp : bi'.dfspPos = bi.dfspPos)
    (hh : bi'.iloopHeader = bi.iloopHeader) (n b c : ℕ) :
    (bi'.tagTraversed n b c).iloopHeader = (bi.tagTraversed n b c).iloopHeader := by
  unfold tagTraversed
  simp only [hp, hh, headerOnPath_congr hp hh]
  split_ifs
  · exact tagLhead_congr hp hh ..
  · exact tagLhead_congr hp hh ..
  · split
    · exact tagLhead_congr hp hh ..
    · exact hh
  · exact hh

variable {P : ℕ → Prop}

/-- The loop of `tag_lhead` merges two chains. -/
theorem tagLheadLoop_merged {rank : ℕ → ℕ} (inj : ∀ x y, P x → P y → rank x = rank y → x = y) :
    ∀ (n : ℕ) (f : ℕ → ℕ) (a b : ℕ), Sorted 0 rank P f → P a → P b → b ≠ 0 → rank b < rank a →
      rank a + rank b < n → Merged 0 rank f a b (tagLheadLoop rank n f a b) := by
  intro n
  induction n with
  | zero => intro f a b _ _ _ _ _ hn; omega
  | succ n ih =>
    intro f a b hs ha hb hb0 hlt hn
    rw [tagLheadLoop]
    by_cases hfa : f a = 0
    · rw [if_neg (not_not.mpr hfa)]
      exact .last hfa hb0 hlt
    rw [if_pos hfa]
    dsimp only
    split_ifs with hdone hrank
    · exact hdone ▸ .done hfa
    · have hs' : Sorted 0 rank P (Function.update f a b) := by
        constructor
        · intro x hx hxne
          by_cases hxa : x = a
          · simpa [hxa] using hb
          · rw [Function.update_of_ne hxa] at hxne ⊢
            exact hs.mem x hx hxne
        · intro x hx hxne
          by_cases hxa : x = a
          · simpa [hxa] using hlt
          · rw [Function.update_of_ne hxa] at hxne ⊢
            exact hs.lt x hx hxne
      refine .swap hs ha hb hfa hb0 hlt (ih _ _ _ hs' hb (hs.mem a ha hfa) hfa hrank ?_)
      have := hs.lt a ha hfa
      omega
    · have hPfa := hs.mem a ha hfa
      have hlt' : rank b < rank (f a) := by
        refine lt_of_le_of_ne (not_lt.mp hrank) fun heq => hdone (inj _ _ hPfa hb heq.symm)
      refine .skip hfa (ih _ _ _ hs hPfa hb hb0 hlt' ?_)
      have := hs.lt a ha hfa
      omega

/-- `tag_lhead` merges the chain of `h` into the chain of `b`. -/
theorem tagLhead_merged {b h : ℕ} (inj : ∀ x y, P x → P y → bi.dfspPos x = bi.dfspPos y → x = y)
    (hs : Sorted 0 bi.dfspPos P bi.iloopHeader) (hb : P b) (hh : P h) (h0 : h ≠ 0)
    (hlt : b ≠ h → bi.dfspPos h < bi.dfspPos b) :
    Merged 0 bi.dfspPos bi.iloopHeader b h (bi.tagLhead b h).iloopHeader := by
  unfold tagLhead
  split_ifs with hc
  · obtain rfl := hc.resolve_right h0
    exact .refl _
  · rw [not_or] at hc
    exact tagLheadLoop_merged inj _ _ _ _ hs hb hh h0 (hlt hc.1) (Nat.lt_succ_self _)

end BlockInfos

/-! ### The invariant -/

/-- The blocks that have been entered. -/
def Traversed (s : LoopState) : Set ℕ := {b | s.infos.traversed b = true}

/-- The path of the search. A block that is still to be entered is not on it. -/
def pathOf : List TravState → List ℕ
  | [] => []
  | st :: rest =>
    if st.state = .entry then rest.map TravState.blockIdx else st.blockIdx :: rest.map TravState.blockIdx

/-- The search is done with an edge when its source has been entered and has moved on. -/
def Done (g : RpoGraph) (s : LoopState) (x y : ℕ) : Prop :=
  g.Edge x y ∧ x ∈ Traversed s ∧ ∀ st ∈ s.travState, st.blockIdx = x → y ∉ st.succIt

/-- The header of a block has been handed back, unless a state waits for it. -/
def Returned (s : LoopState) (x : ℕ) : Prop := ∀ st ∈ s.travState, st.state = .ret → st.succIt.head? ≠ some x

/-- The states below that of block `c` at position `pos`: each waits for the block above it. -/
inductive Below (g : RpoGraph) : ℕ → ℕ → List TravState → Prop where
  | root : Below g 0 1 []
  | link {c : ℕ} {st : TravState} {rest : List TravState} {tl : List ℕ}
    (h : Below g st.blockIdx st.dfspPos rest)
      (hs : st.state = .ret) (hc : st.succIt = c :: tl) (hsub : ∀ y ∈ st.succIt, g.Edge st.blockIdx y) :
      Below g c (st.dfspPos + 1) (st :: rest)

theorem Below.pos_eq {g : RpoGraph} {c pos : ℕ} {rest : List TravState} (h : Below g c pos rest) :
    pos = rest.length + 1 := by
  induction h with
  | root => rfl
  | link _ _ _ _ ih => rw [ih, List.length_cons]

theorem Below.eq_zero {g : RpoGraph} {c pos : ℕ} (h : Below g c pos []) : c = 0 := by
  cases h
  rfl

/-- The state right below. -/
theorem Below.next {g : RpoGraph} {c pos : ℕ} {st : TravState} {rest : List TravState}
    (h : Below g c pos (st :: rest)) : Below g st.blockIdx st.dfspPos rest ∧ st.state = .ret ∧
      (∃ tl, st.succIt = c :: tl) ∧ ∀ y ∈ st.succIt, g.Edge st.blockIdx y := by
  cases h with
  | link h hs hc hsub => exact ⟨h, hs, ⟨_, hc⟩, hsub⟩

/-- The state on top. -/
structure TopInv (g : RpoGraph) (s : LoopState) (anc : ℕ → List ℕ) (st : TravState) (rest : List TravState) :
    Prop where
  below : Below g st.blockIdx st.dfspPos rest
  succs : ∀ y ∈ st.succIt, g.Edge st.blockIdx y
  entry : st.state = .entry → st.blockIdx ∉ Traversed s ∧ st.succIt = g.succs st.blockIdx
  ret : st.state = .ret → ∃ c tl, st.succIt = c :: tl ∧ c ∈ Traversed s ∧ c ∉ pathOf s.travState ∧
    anc c = c :: anc st.blockIdx ∧ st.nh = s.infos.iloopHeader c

/-- What a round of the search keeps. -/
structure LoopInv (g : RpoGraph) (s : LoopState) (anc : ℕ → List ℕ) (pre : ℕ → ℕ) : Prop where
  sub : Traversed s ⊆ g.Blocks
  path : PathInv g.Edge 0 (Traversed s) anc pre (pathOf s.travState) (Done g s)
  header :
    HeaderInv g.Edge 0 0 (Traversed s) anc (pathOf s.travState) s.infos.iloopHeader (Done g s) (Returned s)
  pos : ∀ x, s.infos.dfspPos x = if x ∈ pathOf s.travState then (anc x).length else 0
  selfLoop : ∀ x, s.infos.selfLoop x = true → g.Edge x x
  selfDone : ∀ x, Done g s x x → s.infos.selfLoop x = true
  top : ∀ st rest, s.travState = st :: rest → TopInv g s anc st rest

namespace LoopInv

variable {g : RpoGraph} {s : LoopState} {anc : ℕ → List ℕ} {pre : ℕ → ℕ}

theorem pos_path (h : LoopInv g s anc pre) {x : ℕ} (hx : x ∈ pathOf s.travState) :
    s.infos.dfspPos x = (anc x).length := by rw [h.pos, if_pos hx]

/-- A block has a position exactly when it is on the path. -/
theorem pos_iff (h : LoopInv g s anc pre) (x : ℕ) : s.infos.dfspPos x > 0 ↔ x ∈ pathOf s.travState := by
  rw [h.pos]
  split_ifs with hx
  · have := List.length_pos_of_mem (h.path.tree.self_mem (h.path.mem hx))
    simpa [hx] using this
  · simp [hx]

theorem pos_inj (h : LoopInv g s anc pre) (x y : ℕ) (hx : x ∈ pathOf s.travState)
    (hy : y ∈ pathOf s.travState)
    (hxy : s.infos.dfspPos x = s.infos.dfspPos y) : x = y := by
  rw [h.pos_path hx, h.pos_path hy] at hxy
  exact h.path.length_inj hx hy hxy

/-- The headers on the path are sorted by position. -/
theorem sorted (h : LoopInv g s anc pre) :
    Sorted 0 s.infos.dfspPos (fun x => x ∈ pathOf s.travState) s.infos.iloopHeader where
  mem x hx hne := h.path.anc_subset hx (h.header.header x (h.path.mem hx) hne).1
  lt x hx hne := by
    obtain ⟨hmem, hne'⟩ := h.header.header x (h.path.mem hx) hne
    rw [h.pos_path hx, h.pos_path (h.path.anc_subset hx hmem)]
    exact h.path.tree.length_lt (h.path.mem hx) hmem hne'

/-- Tagging the last block of the path with another one merges their chains. -/
theorem merged (h : LoopInv g s anc pre) {b c : ℕ} {rest : List ℕ} (hpath : pathOf s.travState = b :: rest)
    (hc : c ∈ pathOf s.travState) (hc0 : c ≠ 0) :
    Merged 0 s.infos.dfspPos s.infos.iloopHeader b c (s.infos.tagLhead b c).iloopHeader := by
  have hbm : b ∈ pathOf s.travState := hpath ▸ List.mem_cons_self
  refine BlockInfos.tagLhead_merged h.pos_inj h.sorted hbm hc hc0 fun hbc => ?_
  obtain ⟨hb, hab⟩ := h.path.path_anc b rest hpath
  rw [h.pos_path hbm, h.pos_path hc]
  exact h.path.tree.length_lt hb (hab ▸ hc) (Ne.symm hbc)

theorem length_le (h : LoopInv g s anc pre) {x : ℕ} (hx : x ∈ Traversed s) :
    (anc x).length ≤ g.numBlocks := by
  have hsub : anc x ⊆ List.range g.numBlocks := fun y hy =>
    List.mem_range.mpr (h.sub (h.path.tree.anc_mem hx hy))
  simpa using (List.subperm_of_subset (h.path.tree.nodup hx) hsub).length_le

/-- The search for a header on the path. -/
theorem headerOnPath_spec (h : LoopInv g s anc pre) :
    ∀ (n x : ℕ), x ∈ Traversed s → (anc x).length ≤ n →
      match s.infos.headerOnPath n x with
      | some c => c ∈ pathOf s.travState ∧ c ≠ 0 ∧ Chain 0 s.infos.iloopHeader x c ∧
          ∀ d ∈ pathOf s.travState, Chain 0 s.infos.iloopHeader x d → d = x ∨ Chain 0 s.infos.iloopHeader c d
      | none => ∀ d ∈ pathOf s.travState, Chain 0 s.infos.iloopHeader x d → d = x := by
  intro n
  induction n with
  | zero =>
    intro x hx hn
    have := List.length_pos_of_mem (h.path.tree.self_mem hx)
    omega
  | succ n ih =>
    intro x hx hn
    rw [BlockInfos.headerOnPath]
    by_cases h0 : s.infos.iloopHeader x = 0
    · rw [if_neg (not_not.mpr h0)]
      intro d _ hd
      exact hd.cases.resolve_right fun hc => hc.1 h0
    rw [if_pos h0]
    obtain ⟨hmem, hne⟩ := h.header.header x hx h0
    have hhT := h.path.tree.anc_mem hx hmem
    by_cases hpos : s.infos.dfspPos (s.infos.iloopHeader x) > 0
    · simp only [hpos, if_true]
      exact ⟨(h.pos_iff _).mp hpos, h0, .step h0, fun d _ hd => hd.cases.imp_right And.right⟩
    · simp only [hpos, if_false]
      have hlen := h.path.tree.length_lt hx hmem hne
      have hspec := ih _ hhT (by omega)
      have hnot : s.infos.iloopHeader x ∉ pathOf s.travState := fun hm => hpos ((h.pos_iff _).mpr hm)
      split
      · rename_i c heq
        rw [heq] at hspec
        obtain ⟨h1, h2, h3, h4⟩ := hspec
        refine ⟨h1, h2, (Chain.step h0).trans h3, fun d hd hxd => ?_⟩
        refine hxd.cases.imp_right fun hc => (h4 d hd hc.2).resolve_left ?_
        rintro rfl
        exact hnot hd
      · rename_i heq
        rw [heq] at hspec
        refine fun d hd hxd => hxd.cases.resolve_right fun hc => ?_
        exact hnot (hspec d hd hc.2 ▸ hd)

variable {done' : ℕ → ℕ → Prop} {ret' : ℕ → Prop}

/-- The headers after an edge from the last block of the path to a block that has been entered. -/
theorem tagTraversed_header (h : LoopInv g s anc pre) {b y : ℕ} {rest : List ℕ}
    (hpath : pathOf s.travState = b :: rest) (he : g.Edge b y) (hy : y ∈ Traversed s)
    (hdone : ∀ x z, done' x z → Done g s x z ∨ (x = b ∧ z = y)) (hret : ∀ x, ret' x → Returned s x) :
    HeaderInv g.Edge 0 0 (Traversed s) anc (b :: rest)
      (s.infos.tagTraversed g.numBlocks b y).iloopHeader done' ret' := by
  have hp := h.path
  have hh := h.header
  rw [hpath] at hp hh
  have htag : ∀ c ∈ pathOf s.travState, c ≠ 0 → Chain 0 s.infos.iloopHeader y c →
      (∀ d ∈ pathOf s.travState, Chain 0 s.infos.iloopHeader y d → Chain 0 s.infos.iloopHeader c d) →
      HeaderInv g.Edge 0 0 (Traversed s) anc (b :: rest) (s.infos.tagLhead b c).iloopHeader done' ret' := by
    intro c hc hc0 hyc hfirst
    have hm := h.merged hpath hc hc0
    have hrank : ∀ x ∈ pathOf s.travState, s.infos.dfspPos x = (anc x).length := fun x hx => h.pos_path hx
    rw [hpath] at hc hfirst hrank
    exact .tag hp hh he hy hyc hc hfirst hm hrank hdone fun x hx => .inl (hret x hx)
  have hskip : (∀ d ∈ pathOf s.travState, ¬ Chain 0 s.infos.iloopHeader y d) →
      HeaderInv g.Edge 0 0 (Traversed s) anc (b :: rest) s.infos.iloopHeader done' ret' := by
    intro hno
    rw [hpath] at hno
    exact hh.skip hy (fun d hd hyd => absurd hyd (hno d hd)) hdone fun x hx => .inl (hret x hx)
  unfold BlockInfos.tagTraversed
  by_cases hpos : s.infos.dfspPos y > 0
  · rw [if_pos hpos]
    exact htag y ((h.pos_iff y).mp hpos) (RpoGraph.Edge.ne_zero he) (.refl y) fun d _ hd => hd
  rw [if_neg hpos]
  have hynot : y ∉ pathOf s.travState := fun hm => hpos ((h.pos_iff y).mpr hm)
  by_cases h0 : s.infos.iloopHeader y = 0
  · rw [if_neg (not_not.mpr h0)]
    refine hskip fun d hd hyd => ?_
    rcases hyd.cases with rfl | hc
    · exact hynot hd
    · exact hc.1 h0
  rw [if_pos h0]
  dsimp only
  have hcases : ∀ d ∈ pathOf s.travState, Chain 0 s.infos.iloopHeader y d →
      Chain 0 s.infos.iloopHeader (s.infos.iloopHeader y) d := by
    intro d hd hyd
    refine (hyd.cases.resolve_left ?_).2
    rintro rfl
    exact hynot hd
  by_cases hpos' : s.infos.dfspPos (s.infos.iloopHeader y) > 0
  · rw [if_pos hpos']
    exact htag _ ((h.pos_iff _).mp hpos') h0 (.step h0) hcases
  rw [if_neg hpos']
  have hhT := h.path.tree.anc_mem hy (hh.header y hy h0).1
  have hnot : s.infos.iloopHeader y ∉ pathOf s.travState := fun hm => hpos' ((h.pos_iff _).mpr hm)
  have hspec := h.headerOnPath_spec g.numBlocks _ hhT (h.length_le hhT)
  split
  · rename_i c heq
    rw [heq] at hspec
    obtain ⟨h1, h2, h3, h4⟩ := hspec
    refine htag c h1 h2 ((Chain.step h0).trans h3) fun d hd hyd => ?_
    refine (h4 d hd (hcases d hd hyd)).resolve_left ?_
    rintro rfl
    exact hnot hd
  · rename_i heq
    rw [heq] at hspec
    refine hskip fun d hd hyd => ?_
    exact hnot (hspec d hd (hcases d hd hyd) ▸ hd)

/-! ### The rounds -/

/-- A block is entered. -/
theorem entry (h : LoopInv g s anc pre) {st : TravState} {rest : List TravState}
    (hs : s.travState = st :: rest)
    (hst : st.state = .entry) :
    ∃ anc' pre', LoopInv g
      { infos := s.infos.enter st.blockIdx st.dfspPos,
        travState := { st with state := .succs } :: rest } anc' pre' := by
  have htop := h.top st rest hs
  obtain ⟨hnew, hall⟩ := htop.entry hst
  have hpath : pathOf s.travState = rest.map TravState.blockIdx := by rw [hs, pathOf, if_pos hst]
  set s' : LoopState :=
    { infos := s.infos.enter st.blockIdx st.dfspPos, travState := { st with
      state := .succs } :: rest } with hs'
  have hT : Traversed s' = Set.insert st.blockIdx (Traversed s) := by
    ext x
    by_cases hx : x = st.blockIdx
    · simp [Traversed, hs', hx, Set.insert]
    · simp [Traversed, hs', hx, Set.insert]
  have hdone : ∀ x z, Done g s' x z → Done g s x z := by
    rintro x z ⟨he, hx, hz⟩
    have hxb : x ≠ st.blockIdx := by
      rintro rfl
      refine hz _ List.mem_cons_self rfl ?_
      change z ∈ st.succIt
      exact hall ▸ he
    rw [hT] at hx
    refine ⟨he, hx.resolve_left hxb, fun st' hst' hb => ?_⟩
    rw [hs] at hst'
    rcases List.mem_cons.mp hst' with rfl | hst'
    · exact absurd hb.symm hxb
    · exact hz st' (List.mem_cons_of_mem _ hst') hb
  have hret : ∀ x, Returned s' x → Returned s x := by
    intro x hx st' hst' hr
    rw [hs] at hst'
    rcases List.mem_cons.mp hst' with rfl | hst'
    · rw [hst] at hr
      cases hr
    · exact hx st' (List.mem_cons_of_mem _ hst') hr
  have hbelow := htop.below
  generalize hb : st.blockIdx = b at *
  generalize hpos : st.dfspPos = pos at *
  cases hbelow with
  | root => exact absurd h.path.root_mem hnew
  | @link _ par rest _ hbel hps hpc hpsub =>
    have he : g.Edge par.blockIdx b := hpsub b (hpc ▸ List.mem_cons_self)
    have hp := h.path
    have hh := h.header
    rw [hpath, List.map_cons] at hp hh
    have hpath' : pathOf s'.travState = b :: par.blockIdx :: rest.map TravState.blockIdx := by
      rw [hs', pathOf, if_neg (by simp), ← hb]
      rfl
    obtain ⟨hpar, hanc⟩ := hp.path_anc _ _ rfl
    obtain ⟨pre', hp'⟩ := hp.enter hnew he hdone
    have hh' := HeaderInv.enter hp hh hnew hdone hret
    refine ⟨Function.update anc b (b :: anc par.blockIdx), pre', ?_⟩
    constructor
    · rw [hT]
      rintro x (rfl | hx)
      · exact RpoGraph.Edge.lt_right he
      · exact h.sub hx
    · rw [hT, hpath']
      exact hp'
    · rw [hT, hpath']
      exact hh'
    · intro x
      rw [hpath']
      by_cases hx : x = b
      · subst hx
        have hlen := hbel.pos_eq
        simp [hs', hanc, hlen]
      · rw [Function.update_of_ne hx]
        have := h.pos x
        rw [hpath, List.map_cons] at this
        simpa [hs', Function.update_of_ne hx, hx] using this
    · exact h.selfLoop
    · exact fun x hx => h.selfDone x (hdone x x hx)
    · intro st' rest' heq
      obtain ⟨rfl, rfl⟩ := List.cons_eq_cons.mp heq
      refine ⟨?_, ?_, (fun hc => nomatch hc), (fun hc => nomatch hc)⟩
      · exact hb ▸ hpos ▸ .link hbel hps hpc hpsub
      · intro y hy
        exact hb ▸ htop.succs y hy

/-- Marking a self loop changes nothing that the search reads. -/
theorem markSelf_frame {b y : ℕ} {infos : BlockInfos}
    (hinfos : infos = if y = b then s.infos.markSelfLoop b else s.infos) :
    infos.traversed = s.infos.traversed ∧ infos.dfspPos = s.infos.dfspPos ∧
      infos.iloopHeader = s.infos.iloopHeader ∧
      ∀ x, infos.selfLoop x = true ↔ s.infos.selfLoop x = true ∨ (x = b ∧ x = y) := by
  subst hinfos
  split_ifs with hyb
  · refine ⟨rfl, rfl, rfl, fun x => ?_⟩
    by_cases hx : x = b
    · simp [hx, hyb]
    · simp [hx]
  · refine ⟨rfl, rfl, rfl, fun x => ?_⟩
    refine ⟨.inl, ?_⟩
    rintro (hx | ⟨rfl, rfl⟩)
    · exact hx
    · exact absurd rfl hyb

/-- The search moves on along an edge of the last block of the path. -/
theorem advance (h : LoopInv g s anc pre) {st : TravState} {rest : List TravState} {y : ℕ} {ys : List ℕ}
    {s' : LoopState} (hs : s.travState = st :: rest) (hst : st.state ≠ .entry) (hit : st.succIt = y :: ys)
    (hy : y ∈ Traversed s) (hs' : s'.travState = { st with state := .succs, succIt := ys } :: rest)
    (htr : s'.infos.traversed = s.infos.traversed) (hpos : s'.infos.dfspPos = s.infos.dfspPos)
    (hself : ∀ x, s'.infos.selfLoop x = true ↔ s.infos.selfLoop x = true ∨ (x = st.blockIdx ∧ x = y))
    (hheader : HeaderInv g.Edge 0 0 (Traversed s) anc (pathOf s.travState) s'.infos.iloopHeader (Done g s')
      (Returned s')) (hdone : ∀ x z, Done g s' x z → Done g s x z ∨ (x = st.blockIdx ∧ z = y)) :
    LoopInv g s' anc pre := by
  have htop := h.top st rest hs
  have he : g.Edge st.blockIdx y := htop.succs y (hit ▸ List.mem_cons_self)
  have hT : Traversed s' = Traversed s := by simp [Traversed, htr]
  have hpath : pathOf s.travState = st.blockIdx :: rest.map TravState.blockIdx := by
    rw [hs, pathOf, if_neg hst]
  have hpath' : pathOf s'.travState = pathOf s.travState := by rw [hpath, hs', pathOf, if_neg (by simp)]
  constructor
  · exact hT ▸ h.sub
  · have hp := h.path
    rw [hT, hpath']
    rw [hpath] at hp ⊢
    exact hp.advance hy hdone
  · rw [hT, hpath']
    exact hheader
  · intro x
    rw [hpath', hpos]
    exact h.pos x
  · intro x hx
    rcases (hself x).mp hx with hx | ⟨rfl, rfl⟩
    · exact h.selfLoop x hx
    · exact he
  · intro x hx
    rw [hself]
    rcases hdone x x hx with hx | ⟨rfl, rfl⟩
    · exact .inl (h.selfDone x hx)
    · exact .inr ⟨rfl, rfl⟩
  · intro st' rest' heq
    rw [hs'] at heq
    obtain ⟨rfl, rfl⟩ := List.cons_eq_cons.mp heq
    refine ⟨htop.below, fun z hz => htop.succs z ?_, (fun hc => nomatch hc), (fun hc => nomatch hc)⟩
    exact hit ▸ List.mem_cons_of_mem _ hz

/-- Nothing but the first edge of the state on top is newly done. -/
theorem done_of_tail {st : TravState} {rest : List TravState} {y : ℕ} {ys : List ℕ} {s' : LoopState}
    (hs : s.travState = st :: rest) (hit : st.succIt = y :: ys)
    (hs' : s'.travState = { st with state := .succs, succIt := ys } :: rest)
    (htr : s'.infos.traversed = s.infos.traversed) (x z : ℕ) (hxz : Done g s' x z) :
    Done g s x z ∨ (x = st.blockIdx ∧ z = y) := by
  obtain ⟨he, hx, hz⟩ := hxz
  by_cases hxy : x = st.blockIdx ∧ z = y
  · exact .inr hxy
  refine .inl ⟨he, by simpa [Traversed, htr] using hx, fun st' hst' hb => ?_⟩
  rw [hs'] at hz
  rw [hs] at hst'
  rcases List.mem_cons.mp hst' with rfl | hst'
  · rw [hit, List.mem_cons, not_or]
    exact ⟨fun hzy => hxy ⟨hb.symm, hzy⟩, hz _ List.mem_cons_self hb⟩
  · exact hz st' (List.mem_cons_of_mem _ hst') hb

/-- An edge to a block that has been entered. -/
theorem traversed (h : LoopInv g s anc pre) {st : TravState} {rest : List TravState} {y : ℕ} {ys : List ℕ}
    (hs : s.travState = st :: rest) (hst : st.state = .succs) (hit : st.succIt = y :: ys)
    (hy : y ∈ Traversed s)
    {infos : BlockInfos}
    (hinfos : infos = if y = st.blockIdx then s.infos.markSelfLoop st.blockIdx else s.infos) :
    LoopInv g { infos := infos.tagTraversed g.numBlocks st.blockIdx y
                travState := { st with succIt := ys } :: rest } anc pre := by
  obtain ⟨htr, hpos, hhdr, hself⟩ := markSelf_frame hinfos
  obtain ⟨ftr, fself, fpos⟩ := infos.tagTraversed_frame g.numBlocks st.blockIdx y
  set s' : LoopState :=
    { infos := infos.tagTraversed g.numBlocks st.blockIdx y, travState := { st with succIt := ys } :: rest }
  have hs' : s'.travState = { st with state := .succs, succIt := ys } :: rest := by rw [← hst]
  have hdone := done_of_tail (g := g) hs hit hs' (ftr.trans htr)
  have hpath : pathOf s.travState = st.blockIdx :: rest.map TravState.blockIdx := by
    rw [hs, pathOf, if_neg (by simp [hst])]
  have he := (h.top st rest hs).succs y (hit ▸ List.mem_cons_self)
  have hret : ∀ x, Returned s' x → Returned s x := by
    intro x hx st' hst' hr
    rw [hs] at hst'
    rcases List.mem_cons.mp hst' with rfl | hst'
    · rw [hst] at hr
      cases hr
    · exact hx st' (List.mem_cons_of_mem _ hst') hr
  refine h.advance hs (by simp [hst]) hit hy hs' (ftr.trans htr) (fpos.trans hpos) (fun x => ?_) ?_ hdone
  · rw [← hself, ← fself]
  · have htag := h.tagTraversed_header hpath he hy hdone hret
    have hsame : (infos.tagTraversed g.numBlocks st.blockIdx y).iloopHeader =
        (s.infos.tagTraversed g.numBlocks st.blockIdx y).iloopHeader :=
      BlockInfos.tagTraversed_congr hpos hhdr ..
    rw [hpath]
    exact hsame ▸ htag

/-- The header of a child is handed back. -/
theorem back (h : LoopInv g s anc pre) {st : TravState} {rest : List TravState}
    (hs : s.travState = st :: rest)
    (hst : st.state = .ret) :
    LoopInv g { infos := s.infos.tagLhead st.blockIdx st.nh
                travState := { st with state := .succs, succIt := st.succIt.tail } :: rest } anc pre := by
  obtain ⟨c, tl, hit, hc, hcP, hanc, hnh⟩ := (h.top st rest hs).ret hst
  obtain ⟨ftr, fself, fpos⟩ := s.infos.tagLhead_frame st.blockIdx st.nh
  set s' : LoopState :=
    { infos := s.infos.tagLhead st.blockIdx st.nh
      travState := { st with state := .succs, succIt := st.succIt.tail } :: rest } with hsdef
  have hs' : s'.travState = { st with state := .succs, succIt := tl } :: rest := by
    simp [hsdef, hit]
  have hdone := done_of_tail (g := g) hs hit hs' ftr
  have hpath : pathOf s.travState = st.blockIdx :: rest.map TravState.blockIdx := by
    rw [hs, pathOf, if_neg (by simp [hst])]
  have he := (h.top st rest hs).succs c (hit ▸ List.mem_cons_self)
  have hret : ∀ x, Returned s' x → Returned s x ∨ x = c := by
    intro x hx
    by_cases hxc : x = c
    · exact .inr hxc
    · refine .inl fun st' hst' hr => ?_
      rw [hs] at hst'
      rcases List.mem_cons.mp hst' with rfl | hst'
      · rw [hit]
        simpa using Ne.symm hxc
      · exact hx st' (hs' ▸ List.mem_cons_of_mem _ hst') hr
  have hp := h.path
  have hh := h.header
  have hself : ∀ x, Chain 0 s.infos.iloopHeader c x → x ∈ pathOf s.travState →
      s.infos.iloopHeader c ≠ 0 ∧ Chain 0 s.infos.iloopHeader (s.infos.iloopHeader c) x := by
    intro x hx hxP
    refine hx.cases.resolve_left ?_
    rintro rfl
    exact hcP hxP
  refine h.advance hs (by simp [hst]) hit hc hs' ftr fpos (fun x => ?_) ?_ hdone
  · rw [fself]
    refine ⟨.inl, ?_⟩
    rintro (hx | ⟨rfl, rfl⟩)
    · exact hx
    · exact absurd (hpath ▸ List.mem_cons_self) hcP
  · change HeaderInv _ _ _ _ _ _ (s.infos.tagLhead st.blockIdx st.nh).iloopHeader _ _
    rw [hnh]
    by_cases h0 : s.infos.iloopHeader c = 0
    · rw [h0, BlockInfos.tagLhead, if_pos (.inr rfl)]
      refine hh.skip hc (fun d hd hcd => absurd h0 (hself d hcd hd).1) hdone fun x hx => ?_
      exact (hret x hx).imp_right fun hxc => ⟨hxc, h0⟩
    · obtain ⟨hb, hab⟩ := hp.path_anc _ _ hpath
      obtain ⟨hmem, hne⟩ := hh.header c hc h0
      have hhP : s.infos.iloopHeader c ∈ pathOf s.travState := by
        rw [← hab]
        rw [hanc] at hmem
        exact (List.mem_cons.mp hmem).resolve_left hne
      have hm := h.merged hpath hhP h0
      have hrank : ∀ x ∈ pathOf s.travState, s.infos.dfspPos x = (anc x).length := fun x hx => h.pos_path hx
      have hfirst : ∀ d ∈ pathOf s.travState, Chain 0 s.infos.iloopHeader c d →
          Chain 0 s.infos.iloopHeader (s.infos.iloopHeader c) d := fun d hd hcd => (hself d hcd hd).2
      rw [hpath] at hp hh hhP hrank hfirst ⊢
      refine .tag hp hh he hc (.step h0) hhP hfirst hm hrank hdone fun x hx => ?_
      exact (hret x hx).imp_right fun hxc => ⟨hxc, rfl, hanc⟩

/-- A child is pushed. -/
theorem push (h : LoopInv g s anc pre) {st : TravState} {rest : List TravState} {y : ℕ} {ys : List ℕ}
    (hs : s.travState = st :: rest) (hst : st.state = .succs) (hit : st.succIt = y :: ys)
    (hy : y ∉ Traversed s)
    {infos : BlockInfos}
    (hinfos : infos = if y = st.blockIdx then s.infos.markSelfLoop st.blockIdx else s.infos) :
    LoopInv g { infos := infos
                travState := .push g y (st.dfspPos + 1) :: { st with state := .ret } :: rest } anc pre := by
  have hpath : pathOf s.travState = st.blockIdx :: rest.map TravState.blockIdx := by
    rw [hs, pathOf, if_neg (by simp [hst])]
  have hyb : y ≠ st.blockIdx := by
    rintro rfl
    exact hy (h.path.mem (hpath ▸ List.mem_cons_self))
  obtain rfl : infos = s.infos := by rw [hinfos, if_neg hyb]
  have htop := h.top st rest hs
  set s' : LoopState :=
    { infos := s.infos, travState := .push g y (st.dfspPos + 1) :: { st with state := .ret } :: rest }
  have hpath' : pathOf s'.travState = pathOf s.travState := by
    rw [hpath]
    rfl
  have hdone : ∀ x z, Done g s' x z → Done g s x z := by
    rintro x z ⟨he, hx, hz⟩
    refine ⟨he, hx, fun st' hst' hb => ?_⟩
    rw [hs] at hst'
    rcases List.mem_cons.mp hst' with rfl | hst'
    · exact hz { st' with state := .ret } (by simp [s']) hb
    · exact hz st' (by simp [s', hst']) hb
  have hret : ∀ x, Returned s' x → Returned s x := by
    intro x hx st' hst' hr
    rw [hs] at hst'
    rcases List.mem_cons.mp hst' with rfl | hst'
    · rw [hst] at hr
      cases hr
    · exact hx st' (by simp [s', hst']) hr
  constructor
  · exact h.sub
  · rw [hpath']
    exact h.path.mono hdone
  · rw [hpath']
    exact h.header.mono hdone hret
  · rw [hpath']
    exact h.pos
  · exact h.selfLoop
  · exact fun x hx => h.selfDone x (hdone x x hx)
  · intro st' rest' heq
    obtain ⟨rfl, rfl⟩ := List.cons_eq_cons.mp heq
    refine ⟨?_, fun z hz => hz, fun _ => ⟨hy, rfl⟩, (fun hc => nomatch hc)⟩
    exact @Below.link g y { st with state := .ret } rest ys htop.below rfl hit htop.succs

/-- The last block of the path has no successors left. -/
theorem pop (h : LoopInv g s anc pre) {st : TravState} {rest rest' : List TravState}
    (hs : s.travState = st :: rest) (hst : st.state = .succs) (hit : st.succIt = [])
    (hrest : rest' = match rest with
      | [] => []
      | back :: rest => { back with nh := s.infos.iloopHeader st.blockIdx } :: rest) :
    LoopInv g { infos := s.infos.leave st.blockIdx, travState := rest' } anc pre := by
  have hpath : pathOf s.travState = st.blockIdx :: rest.map TravState.blockIdx := by
    rw [hs, pathOf, if_neg (by simp [hst])]
  have htop := h.top st rest hs
  set s' : LoopState := { infos := s.infos.leave st.blockIdx, travState := rest' }
  have hp := h.path
  have hh := h.header
  rw [hpath] at hp hh
  obtain ⟨hb, hab⟩ := hp.path_anc _ _ rfl
  have hnd := hab ▸ hp.tree.nodup hb
  rw [List.nodup_cons] at hnd
  -- what the two lists of states below have in common
  have hsame : ∀ st' ∈ rest, ∃ st'' ∈ rest', st''.blockIdx = st'.blockIdx ∧ st''.state = st'.state ∧
      st''.succIt = st'.succIt := by
    intro st' hst'
    cases rest with
    | nil => exact absurd hst' List.not_mem_nil
    | cons back rest =>
      dsimp only at hrest
      rw [hrest]
      rcases List.mem_cons.mp hst' with rfl | hst'
      · exact ⟨_, List.mem_cons_self, rfl, rfl, rfl⟩
      · exact ⟨st', List.mem_cons_of_mem _ hst', rfl, rfl, rfl⟩
  have hdone : ∀ x z, Done g s' x z → Done g s x z := by
    rintro x z ⟨he, hx, hz⟩
    refine ⟨he, hx, fun st' hst' hb => ?_⟩
    rw [hs] at hst'
    rcases List.mem_cons.mp hst' with rfl | hst'
    · simp [hit]
    · obtain ⟨st'', hm, h1, -, h3⟩ := hsame st' hst'
      exact h3 ▸ hz st'' hm (h1.trans hb)
  have hall : ∀ x ∈ Traversed s, x = st.blockIdx ∨ x ∉ st.blockIdx :: rest.map TravState.blockIdx →
      ∀ z, g.Edge x z → Done g s x z := by
    intro x hx hcase z he
    refine ⟨he, hx, fun st' hst' hb => ?_⟩
    rw [hs] at hst'
    rcases List.mem_cons.mp hst' with rfl | hst'
    · simp [hit]
    · have hm : x ∈ rest.map TravState.blockIdx := hb ▸ List.mem_map_of_mem hst'
      rcases hcase with rfl | hn
      · exact absurd hm hnd.1
      · exact absurd (List.mem_cons_of_mem _ hm) hn
  have hret : ∀ x, x ≠ 0 → Returned s' x → Returned s x ∧ x ≠ st.blockIdx := by
    intro x hx0 hx
    refine ⟨fun st' hst' hr => ?_, ?_⟩
    · rw [hs] at hst'
      rcases List.mem_cons.mp hst' with rfl | hst'
      · rw [hst] at hr
        cases hr
      · obtain ⟨st'', hm, -, h2, h3⟩ := hsame st' hst'
        exact h3 ▸ hx st'' hm (h2.trans hr)
    · rintro rfl
      have hbel := htop.below
      cases rest with
      | nil => exact hx0 hbel.eq_zero
      | cons back rest =>
        obtain ⟨st'', hm, -, h2, h3⟩ := hsame back List.mem_cons_self
        obtain ⟨-, hps, ⟨tl, hpc⟩, -⟩ := hbel.next
        exact hx st'' hm (h2.trans hps) (by rw [h3, hpc]; rfl)
  have hpath' : pathOf s'.travState = rest.map TravState.blockIdx := by
    have hbel := htop.below
    cases rest with
    | nil =>
      dsimp only at hrest
      simp [s', hrest, pathOf]
    | cons back rest =>
      dsimp only at hrest
      simp [s', hrest, pathOf, hbel.next.2.1]
  have hp' := hp.leave hdone
  constructor
  · exact h.sub
  · rw [hpath']
    exact hp'
  · rw [hpath']
    exact hh.leave hp hall hdone hret
  · intro x
    rw [hpath']
    by_cases hx : x = st.blockIdx
    · subst hx
      simp [s', hnd.1]
    · have := h.pos x
      rw [hpath] at this
      simpa [s', hx] using this
  · exact h.selfLoop
  · exact fun x hx => h.selfDone x (hdone x x hx)
  · intro st' rest'' heq
    have hbel := htop.below
    cases rest with
    | nil =>
      dsimp only at hrest
      simp [s', hrest] at heq
    | cons back rest =>
      dsimp only at hrest
      have hheq : { back with nh := s.infos.iloopHeader st.blockIdx } :: rest = st' :: rest'' := by
        rw [← heq, ← hrest]
      obtain ⟨rfl, rfl⟩ := List.cons_eq_cons.mp hheq
      rw [List.map_cons] at hp' hab
      have hbb := (hp'.path_anc _ _ rfl).2
      obtain ⟨hbel', hps, ⟨tl, hpc⟩, hpsub⟩ := hbel.next
      refine ⟨hbel', hpsub, fun hc => ?_, fun _ => ⟨st.blockIdx, tl, hpc, hb, hpath' ▸ hnd.1, ?_, rfl⟩⟩
      · change back.state = _ at hc
        rw [hps] at hc
        cases hc
      · rw [hab]
        exact congrArg (st.blockIdx :: ·) hbb.symm

end LoopInv

/-- What a round keeps, the first one included. -/
def SearchInv (g : RpoGraph) (s : LoopState) : Prop := s = .init g ∨ ∃ anc pre, LoopInv g s anc pre

section
variable {g : RpoGraph}

/-- The entry is entered. -/
theorem identifyStep_init : ∃ anc pre, LoopInv g (identifyStep g (.init g)) anc pre := by
  have hstate : identifyStep g (.init g) =
      { infos := BlockInfos.init.enter 0 1, travState := [⟨0, 1, 0, .succs, g.succs 0⟩] } := rfl
  rw [hstate]
  set s : LoopState := { infos := BlockInfos.init.enter 0 1, travState := [⟨0, 1, 0, .succs, g.succs 0⟩] }
  have hT : ∀ x, x ∈ Traversed s ↔ x = 0 := by
    intro x
    by_cases hx : x = 0 <;> simp [Traversed, s, BlockInfos.init, hx]
  have hdone : ∀ x y, ¬ Done g s x y := by
    rintro x y ⟨he, hx, hn⟩
    obtain rfl := (hT x).mp hx
    exact hn _ List.mem_cons_self rfl he
  have hpath : pathOf s.travState = [0] := rfl
  refine ⟨fun x => [x], fun _ => 0, ?_⟩
  constructor
  · intro x hx
    obtain rfl := (hT x).mp hx
    exact g.numBlocks_pos
  · constructor
    · exact ⟨fun _ => rfl, fun x hx hx0 => absurd ((hT x).mp hx) hx0⟩
    · exact (hT 0).mpr rfl
    · intro b rest heq
      rw [hpath] at heq
      obtain ⟨rfl, rfl⟩ := List.cons_eq_cons.mp heq
      exact ⟨(hT 0).mpr rfl, rfl⟩
    · exact ⟨1, fun _ _ => Nat.zero_lt_one⟩
    · intro x hx a ha z hz _ _
      obtain rfl := (hT x).mp hx
      obtain rfl := (hT z).mp hz
      exact ha
    · intro x hx y hy _
      obtain rfl := (hT y).mp hy
      exact hx
    · exact fun x y hxy => absurd hxy (hdone x y)
  · have hnil : ∀ x, s.infos.iloopHeader x = 0 := fun x => rfl
    constructor
    · exact fun x _ => hnil x
    · exact fun x _ hne => absurd (hnil x) hne
    · intro x _ h hc
      rcases hc.cases with rfl | hc
      · exact .refl _ _
      · exact absurd (hnil x) hc.1
    · exact fun x _ _ _ _ => .inl (hnil x)
    · exact fun x y hxy => absurd hxy (hdone x y)
    · intro h hh hn
      obtain rfl := (hT h).mp hh
      exact absurd List.mem_cons_self hn
  · intro x
    rw [hpath]
    by_cases hx : x = 0 <;> simp [s, BlockInfos.init, hx]
  · intro x hx
    cases hx
  · exact fun x hx => absurd hx (hdone x x)
  · intro st rest heq
    obtain ⟨rfl, rfl⟩ := List.cons_eq_cons.mp heq
    exact ⟨.root, fun y hy => hy, (fun hc => nomatch hc), (fun hc => nomatch hc)⟩

/-- A round keeps the invariant. -/
theorem identifyStep_inv {s : LoopState} {anc : ℕ → List ℕ} {pre : ℕ → ℕ} (h : LoopInv g s anc pre) :
    ∃ anc' pre', LoopInv g (identifyStep g s) anc' pre' := by
  unfold identifyStep
  split
  · exact ⟨anc, pre, h⟩
  · rename_i st rest hs
    split
    · exact h.entry hs ‹_›
    · rename_i hst
      split
      · rename_i y ys hit
        have htr := (LoopInv.markSelf_frame (s := s) (b := st.blockIdx) (y := y) rfl).1
        dsimp only
        generalize hinfos : (if y = st.blockIdx then s.infos.markSelfLoop st.blockIdx else s.infos) =
          infos at *
        split_ifs with hy
        · exact ⟨anc, pre, h.traversed hs hst hit (by rw [htr] at hy; exact hy) hinfos.symm⟩
        · exact ⟨anc, pre, h.push hs hst hit (by rw [htr] at hy; exact hy) hinfos.symm⟩
      · rename_i hit
        have hpop := h.pop hs hst hit rfl
        cases rest <;> exact ⟨anc, pre, hpop⟩
    · exact ⟨anc, pre, h.back hs ‹_›⟩

theorem identifyStep_searchInv (s : LoopState) (h : SearchInv g s) (_ : (!s.travState.isEmpty) = true) :
    SearchInv g (identifyStep g s) := by
  rcases h with rfl | ⟨anc, pre, h⟩
  · exact .inr identifyStep_init
  · exact .inr (identifyStep_inv h)

/-- What is left to do for a state. -/
def TravState.cost (st : TravState) : ℕ :=
  match st.state with
  | .entry => 1
  | .succs => 3 * st.succIt.length + 1
  | .ret => 3 * (st.succIt.length - 1) + 2

/-- The blocks that are still to be entered. -/
def toEnter (g : RpoGraph) (traversed : ℕ → Bool) : Finset ℕ :=
  (Finset.range g.numBlocks).filter fun b => traversed b = false

/-- The rounds that are left: those of the states, and of the blocks still to be entered. -/
def identifyVariant (g : RpoGraph) (s : LoopState) : ℕ :=
  (s.travState.map TravState.cost).sum + ∑ b ∈ toEnter g s.infos.traversed, (3 * (g.succs b).length + 2)

theorem variant_entry {s : LoopState} {st : TravState} {rest : List TravState} (hs : s.travState = st :: rest)
    (hst : st.state = .entry) (hb : st.blockIdx < g.numBlocks) (hnew : st.blockIdx ∉ Traversed s)
    (hit : st.succIt = g.succs st.blockIdx) :
    identifyVariant g (identifyStep g s) < identifyVariant g s := by
  have hfilter : toEnter g s.infos.traversed =
      insert st.blockIdx (toEnter g (Function.update s.infos.traversed st.blockIdx true)) := by
    have hnew' : s.infos.traversed st.blockIdx = false := by simpa [Traversed] using hnew
    ext x
    by_cases hx : x = st.blockIdx
    · simp [toEnter, hx, hnew', hb]
    · simp [toEnter, hx]
  unfold identifyVariant identifyStep
  simp only [hs, hst, List.map_cons, List.sum_cons, BlockInfos.enter_traversed]
  rw [hfilter, Finset.sum_insert (by simp [toEnter])]
  simp only [TravState.cost, hst, hit]
  omega

theorem identifyStep_variant (s : LoopState) (h : SearchInv g s) (hc : (!s.travState.isEmpty) = true) :
    identifyVariant g (identifyStep g s) < identifyVariant g s := by
  rcases h with rfl | ⟨anc, pre, h⟩
  · exact variant_entry rfl rfl g.numBlocks_pos (by simp [Traversed, LoopState.init, BlockInfos.init]) rfl
  cases hs : s.travState with
  | nil => simp [hs] at hc
  | cons st rest =>
    have htop := h.top st rest hs
    cases hst : st.state with
    | entry =>
      obtain ⟨hnew, hit⟩ := htop.entry hst
      refine variant_entry hs hst ?_ hnew hit
      have hbel := htop.below
      cases rest with
      | nil => exact hbel.eq_zero ▸ g.numBlocks_pos
      | cons par rest =>
        obtain ⟨-, -, ⟨tl, hpc⟩, hpsub⟩ := hbel.next
        exact RpoGraph.Edge.lt_right (hpsub st.blockIdx (hpc ▸ List.mem_cons_self))
    | succs =>
      cases hit : st.succIt with
      | nil =>
        unfold identifyStep
        simp only [hs, hst, hit]
        cases rest with
        | nil =>
          simp only [identifyVariant, hs, BlockInfos.leave_traversed, List.map_cons, List.sum_cons,
            List.map_nil,
            List.sum_nil, TravState.cost, hst]
          omega
        | cons par rest =>
          simp only [identifyVariant, hs, BlockInfos.leave_traversed, List.map_cons, List.sum_cons,
            TravState.cost, hst]
          omega
      | cons y ys =>
        unfold identifyStep
        simp only [hs, hst, hit]
        generalize hinfos : (if y = st.blockIdx then s.infos.markSelfLoop st.blockIdx else s.infos) = infos
        have htr := (LoopInv.markSelf_frame hinfos.symm).1
        split_ifs with hy
        · have htr' := (infos.tagTraversed_frame g.numBlocks st.blockIdx y).1
          simp only [identifyVariant, hs, htr', htr, List.map_cons, List.sum_cons, TravState.cost, hst, hit,
            List.length_cons]
          omega
        · simp only [identifyVariant, hs, htr, List.map_cons, List.sum_cons, TravState.cost, hst, hit,
            TravState.push, List.length_cons]
          omega
    | ret =>
      obtain ⟨c, tl, hit, -⟩ := htop.ret hst
      have htr := (s.infos.tagLhead_frame st.blockIdx st.nh).1
      unfold identifyStep
      simp only [hs, hst, identifyVariant, htr, List.map_cons, List.sum_cons, TravState.cost, hit,
        List.tail_cons,
        List.length_cons]
      omega

theorem identifyFuel_eq : identifyVariant g (.init g) = identifyFuel g := by
  have htodo : toEnter g (LoopState.init g).infos.traversed = Finset.range g.numBlocks := by
    ext b
    simp [toEnter, LoopState.init, BlockInfos.init]
  unfold identifyVariant identifyFuel
  rw [htodo]
  simp [LoopState.init, TravState.push, TravState.cost]

/-! ### The loops -/

/-- The search ends with every block entered and left. -/
theorem identifyLoop_spec : ∃ anc pre, LoopInv g (identifyLoop g) anc pre ∧ (identifyLoop g).travState = [] ∧
    Traversed (identifyLoop g) = g.Blocks := by
  have hinv : SearchInv g (identifyLoop g) := While.run_inv identifyStep_searchInv _ _ (.inl rfl)
  have hend : (!(identifyLoop g).travState.isEmpty) = false :=
    While.run_end identifyStep_searchInv (identifyVariant g) identifyStep_variant _ _ (.inl rfl)
      identifyFuel_eq.le
  have hs : (identifyLoop g).travState = [] := by simpa using hend
  rcases hinv with hinit | ⟨anc, pre, h⟩
  · rw [hinit] at hs
    simp [LoopState.init] at hs
  · refine ⟨anc, pre, h, hs, Set.Subset.antisymm h.sub fun x hx => ?_⟩
    have hclosed : ∀ u ∈ Traversed (identifyLoop g), ∀ v, g.Edge u v → v ∈ Traversed (identifyLoop g) := by
      intro u hu v he
      have hd : Done g (identifyLoop g) u v := ⟨he, hu, by simp [hs]⟩
      exact (h.path.edge u v hd).2.1
    have hr := RpoGraph.reach_zero hx
    induction hr with
    | refl => exact h.path.root_mem
    | tail _ he ih => exact hclosed _ (ih (RpoGraph.Edge.lt_left he)) _ he

/-- Reading the block infos of a list of blocks. -/
theorem foldl_read (bi : BlockInfos) (is : List ℕ) (l : Loops) (x : ℕ) :
    (is.foldl (Loops.read bi) l).loopParent x =
      (if x ∈ is ∧ bi.iloopHeader x ≠ 0 then bi.iloopHeader x else l.loopParent x) ∧
    ((is.foldl (Loops.read bi) l).loopHeads x = true ↔ l.loopHeads x = true ∨
      ∃ i ∈ is, (bi.iloopHeader i ≠ 0 ∧ bi.iloopHeader i = x) ∨ (bi.selfLoop i = true ∧ i = x)) := by
  induction is generalizing l with
  | nil => simp
  | cons i is ih =>
    have hparent : (Loops.read bi l i).loopParent x =
        if x = i ∧ bi.iloopHeader x ≠ 0 then bi.iloopHeader x else l.loopParent x := by
      unfold Loops.read
      by_cases hx : x = i
      · subst hx
        split_ifs <;> simp_all
      · split_ifs <;> simp_all
    have hheads : (Loops.read bi l i).loopHeads x = true ↔ l.loopHeads x = true ∨
        (bi.iloopHeader i ≠ 0 ∧ bi.iloopHeader i = x) ∨ (bi.selfLoop i = true ∧ i = x) := by
      have hup : ∀ (q : ℕ → Bool) (j : ℕ), Function.update q j true x = true ↔ q x = true ∨ j = x := by
        intro q j
        by_cases hj : x = j
        · simp [hj]
        · simp [hj, Ne.symm hj]
      unfold Loops.read
      dsimp only
      split_ifs with h0 hself hself
      all_goals simp_all [or_assoc]
    rw [List.foldl_cons, (ih _).1, hparent, (ih _).2, hheads]
    refine ⟨?_, ?_⟩
    · by_cases hx : x = i <;> by_cases hm : x ∈ is <;> by_cases h0 : bi.iloopHeader x = 0 <;> simp_all
    · simp only [List.mem_cons, exists_eq_or_imp, or_assoc]

/-- **The loops**: the headers are a loop nest of a depth-first tree over the blocks, and a block is
a head when it is the header of a block or has an edge to itself. -/
theorem identifyLoops_spec :
    (∃ anc pre, LoopNest g.Edge 0 0 g.Blocks anc (identifyLoops g).loopParent ∧
      DfsOrder g.Edge g.Blocks anc pre) ∧
    (∀ h, (identifyLoops g).loopHeads h = true ↔
      (h ≠ 0 ∧ ∃ i < g.numBlocks, (identifyLoops g).loopParent i = h) ∨ g.Edge h h) ∧
    ∀ i, g.numBlocks ≤ i → (identifyLoops g).loopParent i = 0 := by
  obtain ⟨anc, pre, h, hs, hT⟩ := identifyLoop_spec (g := g)
  have hp := h.path
  have hh := h.header
  have hpath : pathOf (identifyLoop g).travState = [] := by rw [hs]; rfl
  rw [hpath] at hp hh
  have hnest := hh.loopNest hp (fun x st hst => by simp [hs] at hst)
  have hparent : (identifyLoops g).loopParent = (identifyLoop g).infos.iloopHeader := by
    funext x
    rw [identifyLoops, (foldl_read ..).1]
    split_ifs with hx
    · rfl
    · by_contra hne
      have hxT : x ∉ Traversed (identifyLoop g) := by
        rw [hT]
        exact fun hxn => hx ⟨List.mem_range.mpr hxn, Ne.symm hne⟩
      exact hne (hh.eq_nil x hxT).symm
  have hdone : ∀ x y, g.Edge x y → Done g (identifyLoop g) x y := fun x y he =>
    ⟨he, hT ▸ RpoGraph.Edge.lt_left he, by simp [hs]⟩
  refine ⟨⟨anc, pre, ?_, ?_⟩, fun x => ?_, fun i hi => ?_⟩
  · rw [hparent]
    exact hT ▸ hnest
  · rw [hT] at hp
    exact ⟨hp.between, fun x _ y he => (hp.edge x y (hdone x y he)).2⟩
  · rw [hparent, identifyLoops, (foldl_read ..).2]
    simp only [Bool.false_eq_true, false_or, List.mem_range]
    constructor
    · rintro ⟨i, hi, ⟨h0, rfl⟩ | ⟨hself, rfl⟩⟩
      · exact .inl ⟨h0, i, hi, rfl⟩
      · exact .inr (h.selfLoop i hself)
    · rintro (⟨h0, i, hi, rfl⟩ | he)
      · exact ⟨i, hi, .inl ⟨h0, rfl⟩⟩
      · exact ⟨x, RpoGraph.Edge.lt_left he, .inr ⟨h.selfDone x (hdone x x he), rfl⟩⟩
  · rw [hparent]
    refine hh.eq_nil i ?_
    rw [hT]
    exact fun hin => absurd hin (Nat.not_lt.mpr hi)

/-- The blocks whose chain of parents has `h` on it. -/
def loopBody (g : RpoGraph) (h : ℕ) : Set ℕ := Body 0 (identifyLoops g).loopParent g.Blocks h

/-- **The loops are the natural loops**: in a reducible graph the heads are the targets of back edges
and the parent of a block is the head of the innermost natural loop around it, for a head the
innermost that strictly encloses its own loop. In any graph the blocks of a head are strongly connected. -/
theorem identifyLoops_natural (g : RpoGraph) :
    (Reducible g.Edge 0 →
      (∀ h, (identifyLoops g).loopHeads h = true ↔ IsHead g.Edge 0 h) ∧
      (∀ x < g.numBlocks, (identifyLoops g).loopParent x ≠ 0 →
        Innermost g.Edge 0 x ((identifyLoops g).loopParent x)) ∧
      (∀ x < g.numBlocks, (identifyLoops g).loopParent x = 0 →
        ∀ h, IsHead g.Edge 0 h → x ∈ NaturalLoop g.Edge 0 h → h = x) ∧
      ∀ x h, IsHead g.Edge 0 x → h ≠ x → x ∈ NaturalLoop g.Edge 0 h →
        NaturalLoop g.Edge 0 x ⊂ NaturalLoop g.Edge 0 h) ∧
    ∀ h, (identifyLoops g).loopHeads h = true → h ∈ loopBody g h ∧
      ∀ x ∈ loopBody g h, ∀ y ∈ loopBody g h, ReachIn g.Edge (loopBody g h) x y := by
  obtain ⟨⟨anc, pre, hn, -⟩, hheads, -⟩ := identifyLoops_spec (g := g)
  have hE : ∀ x y, g.Edge x y → x ∈ g.Blocks ∧ y ∈ g.Blocks := fun x y he => g.lt_of_succs x y he
  constructor
  · intro hred
    refine ⟨fun h => ?_, fun x hx hfx => hn.innermost hE hred hx hfx, fun x hx hfx h _ hm => ?_,
      fun x h hx hne hm => hn.naturalLoop_ssubset hE hred hx hm hne⟩
    · rw [hheads, hn.isHead_iff hE hred]
      rfl
    · exact (hn.chain_of_naturalLoop hE hx hm).cases.resolve_right fun hc => hc.1 hfx
  · intro h hh
    have hhB : h ∈ g.Blocks := by
      rcases (hheads h).mp hh with ⟨h0, i, hi, rfl⟩ | he
      · exact hn.tree.anc_mem hi (hn.header i hi h0).1
      · exact (hE h h he).1
    exact ⟨⟨hhB, .refl h⟩, fun x hx y hy => hn.body_connected hx hy⟩

/-- A loop of two blocks behind the entry. -/
def twoBlockLoop : RpoGraph where
  numBlocks := 3
  succs i := match i with
    | 0 => [1]
    | 1 => [2]
    | 2 => [1]
    | _ => []
  numBlocks_pos := by decide
  lt_of_succs i j hj := by
    match i with
    | 0 | 1 | 2 => simp at hj; omega
    | _ + 3 => simp at hj
  root_notMem i h := by
    match i with
    | 0 | 1 | 2 => simp at h
    | _ + 3 => simp at h
  pred j hj h0 := by
    match j with
    | 1 => exact ⟨0, by decide, by decide⟩
    | 2 => exact ⟨1, by decide, by decide⟩
  retreat i j k hj hjk hki := by
    match i with
    | 0 => simp at hj; omega
    | 1 => simp at hj; omega
    | 2 =>
      obtain rfl : j = 1 := by simpa using hj
      obtain rfl | rfl : k = 1 ∨ k = 2 := by omega
      · exact .refl _ _
      · exact .single (by decide) (by decide) (by decide)
    | _ + 3 => simp at hj

theorem twoBlockLoop_reducible : Reducible twoBlockLoop.Edge 0 := by
  -- every edge but the one from 2 to 1 goes up
  refine .of_rank id fun u v he hb => ?_
  rw [id, id]
  match u with
  | 0 | 1 => simp [RpoGraph.Edge, twoBlockLoop] at he; omega
  | 2 =>
    obtain rfl : v = 1 := by simpa [RpoGraph.Edge, twoBlockLoop] using he
    refine absurd ⟨he, dominates_iff.mpr (.inr fun hr => ?_)⟩ hb
    -- nothing but the entry is reached without 1
    have h0 : 2 ∈ ({0} : Set ℕ) := by
      refine hr.closed (fun y z hy he hz => ?_) rfl
      obtain rfl : y = 0 := hy
      exact absurd (by simpa [RpoGraph.Edge, twoBlockLoop] using he) hz
    exact absurd h0 (by decide)
  | _ + 3 => simp [RpoGraph.Edge, twoBlockLoop] at he

/-- At the loop of two blocks: its head is 1, and it is the innermost loop around 2. -/
theorem identifyLoops_natural_twoBlockLoop :
    IsHead twoBlockLoop.Edge 0 1 ∧ Innermost twoBlockLoop.Edge 0 2 1 := by
  obtain ⟨hheads, hinner, -⟩ := (identifyLoops_natural twoBlockLoop).1 twoBlockLoop_reducible
  exact ⟨(hheads 1).mp (by decide), hinner 2 (by decide) (by decide)⟩

end

end Tpde.Analyzer
