import Tpde.Compiler.PhiMoves
import Tpde.Library.ParallelMove

/-!
# The moves to phis

What `move_to_phi_nodes_impl` emits: a move to each phi in the order of the loop, a copy of
a phi to the temporary where a cycle is broken, and a move from there to the phi that reads
it. The phis are to get their values all at once, as on entry to their block. That they do,
for all values, exactly where every cycle has a phi among the first 64
(`moveToPhiNodes_assigns_iff`).
-/

namespace Tpde.Compiler

open Util FunctionalGraph ParallelMove

variable {V : Type}

/-! ### The code -/

/-- `move_to_phi`. -/
def NodeEntry.moveToPhi [DecidableEq V] (nd : NodeEntry V) : List (Move V) :=
  if nd.incomingVal = nd.phi then [] else [.move nd.phi nd.incomingVal]

section
variable [DecidableEq V] (nodes : List (NodeEntry V))

/-- The move for the node that is handled: none, `move_from_tmp_phi` or `move_to_phi`. -/
def handleCode (s : State V) (cur : ℕ) : List (Move V) :=
  match nodes[cur]? with
  | none => []
  | some nd =>
    if nd.incomingVal = nd.phi then []
    else if some nd.incomingVal = s.curTmpVal then [.restore nd.phi]
    else nd.moveToPhi

/-- The phi of the node that `first_set` finds goes to the temporary. -/
def breakCode (s : State V) : List (Move V) :=
  match s.waitingNodes.firstSet with
  | none => []
  | some cur =>
    match nodes[cur]? with
    | none => []
    | some nd => [.save nd.phi]

/-- The moves of a step. -/
def stepCode (s : State V) : List (Move V) :=
  match s.readyIndices with
  | cur :: _ => handleCode nodes s cur
  | [] => breakCode nodes s

/-- The moves of the loop. There are none where a node is not found, or the loop is not over
after so many steps. The assertion that a node has one reference where a cycle is broken is
left out: without it, the loop goes on as it does in a release build. -/
def loopCode : ℕ → State V → Option (List (Move V))
  | 0, s => if Finished nodes s then some [] else none
  | fuel + 1, s =>
    if Finished nodes s then some []
    else
      match step nodes s with
      | none => none
      | some s' => (loopCode fuel s').map (stepCode nodes s ++ ·)

end

/-- `move_to_phi_nodes_impl`: there is one phi, or no phi reads another, or the loop orders
the moves. -/
def Phis.moveToPhiNodes [DecidableEq V] (A : Phis V) (fuel : ℕ) : Option (List (Move V)) :=
  if A.nodes.length = 1 then some (A.nodes.flatMap NodeEntry.moveToPhi)
  else if ∀ i < A.nodes.length, A.refCounts i = 0 then some (A.nodes.flatMap NodeEntry.moveToPhi)
  else loopCode A.nodes fuel (.init A.nodes A.refCounts)

/-! ### What the loop moves -/

section
variable {nodes : List (NodeEntry V)} {s s' : State V} {W : Type} {c₀ c : Cells V W} {src : V → V}

/-- The phis of some nodes. -/
def phisOf (nodes : List (NodeEntry V)) (order : List ℕ) : List V :=
  order.filterMap fun i => (nodes[i]?).map (·.phi)

theorem mem_phisOf {order : List ℕ} {v : V} :
    v ∈ phisOf nodes order ↔ ∃ i nd, i ∈ order ∧ nodes[i]? = some nd ∧ nd.phi = v := by
  simp [phisOf]

theorem phi_mem_phisOf (hL : Linked nodes) {order : List ℕ} {i : ℕ} {nd : NodeEntry V}
    (hi : nodes[i]? = some nd) :
    nd.phi ∈ phisOf nodes order ↔ i ∈ order := by
  rw [mem_phisOf]
  constructor
  · rintro ⟨k, it, hk, hit, hphi⟩
    exact hL.phi_inj k i it nd hit hi hphi ▸ hk
  · exact fun h => ⟨i, nd, h, hi, rfl⟩

theorem phisOf_snoc {order : List ℕ} {i : ℕ} {nd : NodeEntry V} (hi : nodes[i]? = some nd) :
    phisOf nodes (order ++ [i]) = phisOf nodes order ++ [nd.phi] := by
  simp [phisOf, hi]

/-- A phi that a node still has to read was not handled, unless it is the saved one. -/
theorem Inv.incoming_not_mem (hL : Linked nodes) (hs : Inv nodes s) {cur : ℕ} {nd : NodeEntry V}
    (hcur : cur ∉ s.order)
    (hnd : nodes[cur]? = some nd) (htmp : s.curTmpVal ≠ some nd.incomingVal) :
      nd.incomingVal ∉ phisOf nodes s.order := by
  intro hmem
  obtain ⟨k, it, hk, hit, hphi⟩ := mem_phisOf.mp hmem
  have hne : cur ≠ k := by
    rintro rfl
    exact hcur hk
  have hr : reads nodes cur = some k := (hL.reads_iff cur k).mpr ⟨nd, it, hnd, hit, hphi.symm, hne⟩
  have hcard := hs.counts k it hit (hphi ▸ htmp)
  rw [hs.zero k (List.mem_append_left _ hk)] at hcard
  have hpend : cur ∈ pending nodes s.order k := (mem_pending hL).mpr ⟨hcur, hr⟩
  rw [Finset.card_eq_zero.mp hcard.symm] at hpend
  exact absurd hpend (Finset.notMem_empty cur)

variable [DecidableEq V]

/-- The move for a node, with what is saved behind it. -/
theorem handleCode_cases {cur : ℕ} {nd : NodeEntry V} (hnd : nodes[cur]? = some nd) :
    (nd.incomingVal = nd.phi ∧ handleCode nodes s cur = [] ∧ (handle nodes s cur).curTmpVal = s.curTmpVal) ∨
    (s.curTmpVal = some nd.incomingVal ∧ handleCode nodes s cur = [.restore nd.phi] ∧
      (handle nodes s cur).curTmpVal = none) ∨
    (s.curTmpVal ≠ some nd.incomingVal ∧ handleCode nodes s cur = [.move nd.phi nd.incomingVal] ∧
      (handle nodes s cur).curTmpVal = s.curTmpVal) := by
  by_cases hself : nd.incomingVal = nd.phi
  · exact .inl ⟨hself, by simp [handleCode, hnd, hself], by simp [handle, hnd, hself]⟩
  by_cases htmp : s.curTmpVal = some nd.incomingVal
  · exact .inr (.inl ⟨htmp, by simp [handleCode, hnd, hself, htmp], by rw [handle_of_tmp hnd hself htmp]⟩)
  refine .inr (.inr ⟨htmp, by simp [handleCode, NodeEntry.moveToPhi, hnd, hself, Ne.symm htmp], ?_⟩)
  cases hr : reads nodes cur with
  | none =>
    obtain ⟨taken, -, heq⟩ := handle_of_reads_none hnd (.inl htmp) hr
    rw [heq]
  | some it => rw [handle_of_reads hnd hself htmp hr]

/-- What the move for a node that is ready gives. -/
theorem Inv.handle_moved (hL : Linked nodes) (hsrc : ∀ nd ∈ nodes, nd.incomingVal = src nd.phi)
    (hs : Inv nodes s) {cur : ℕ}
    {rest : List ℕ} (hready : s.readyIndices = cur :: rest)
    (hm : Moved c₀ src (phisOf nodes s.order) s.curTmpVal c) :
    Moved c₀ src (phisOf nodes (s.order ++ [cur])) (Compiler.handle nodes { s with
      readyIndices := rest } cur).curTmpVal
      (run (handleCode nodes s cur) c) := by
  have hcur := hs.ready_not_mem hready
  obtain ⟨nd, hnd⟩ : ∃ nd, nodes[cur]? = some nd :=
    ⟨_, List.getElem?_eq_getElem (hs.lt cur (by simp [hready]))⟩
  have hin := hsrc nd (List.mem_of_getElem? hnd)
  have hcode : handleCode nodes s cur = handleCode nodes { s with readyIndices := rest } cur := rfl
  rw [phisOf_snoc hnd, hcode]
  obtain ⟨hself, hcode, htmp⟩ | ⟨hsaved, hcode, htmp⟩ | ⟨hne, hcode, htmp⟩ :=
    handleCode_cases (s := { s with readyIndices := rest }) hnd
  · rw [hcode, htmp]
    exact hm.stay (hin.symm.trans hself)
  · rw [hcode, htmp]
    rw [show s.curTmpVal = some (src nd.phi) from hin ▸ hsaved] at hm
    exact hm.restore
  · rw [hcode, htmp, hin]
    exact hm.move (hin ▸ hs.incoming_not_mem hL hcur hnd hne)

/-- What the moves of a step give, where the bit set yields a node that waits. -/
theorem Inv.step_moved (hL : Linked nodes) (hsrc : ∀ nd ∈ nodes, nd.incomingVal = src nd.phi)
    (hs : Inv nodes s)
    (hbreak : s.readyIndices = [] → s.handledCount ≠ nodes.length →
      ∃ c, s.waitingNodes.firstSet = some c ∧ c < nodes.length ∧ c ∉ s.order)
    (hstep : Compiler.step nodes s = some s') (hm : Moved c₀ src (phisOf nodes s.order) s.curTmpVal c) :
    Moved c₀ src (phisOf nodes s'.order) s'.curTmpVal (run (stepCode nodes s) c) := by
  obtain ⟨cur, rest, hready, rfl⟩ | ⟨hready, hne, hstep⟩ := step_cases hstep
  · rw [handle_order, stepCode, hready]
    exact hs.handle_moved hL hsrc hready hm
  · obtain ⟨k, hfirst, hlt, hk⟩ := hbreak hready hne
    have hnd := List.getElem?_eq_getElem hlt
    have hcode : stepCode nodes s = [.save nodes[k].phi] := by simp [stepCode, hready, breakCode, hfirst, hnd]
    simp only [Compiler.breakCycle, hfirst, hnd, Option.some.injEq] at hstep
    rw [hcode, ← hstep]
    exact hm.save fun hmem => hk ((phi_mem_phisOf hL hnd).mp hmem)

/-- The moves of a loop that goes on. -/
theorem loopCode_cases {fuel : ℕ} {code : List (Move V)} (h : loopCode nodes (fuel + 1) s = some code) :
    (Finished nodes s ∧ code = []) ∨
    ∃ s' code', step nodes s = some s' ∧ loopCode nodes fuel s' = some code' ∧
      code = stepCode nodes s ++ code' := by
  rw [loopCode] at h
  split at h
  case isTrue hf => exact .inl ⟨hf, (Option.some.inj h).symm⟩
  case isFalse =>
    split at h
    · cases h
    · rename_i s' hstep
      obtain ⟨code', hcode', rfl⟩ := Option.map_eq_some_iff.mp h
      exact .inr ⟨s', code', hstep, hcode', rfl⟩

/-- **What every step keeps holds when the loop is over.** -/
theorem loopCode_induction {P : State V → Cells V W → Prop}
    (hP : ∀ s s' c, P s c → step nodes s = some s' → P s' (run (stepCode nodes s) c)) {fuel : ℕ}
    {code : List (Move V)}
    (h : loopCode nodes fuel s = some code) (hs : P s c) : ∃ s', Finished nodes s' ∧ P s' (run code c) := by
  induction fuel generalizing s c code with
  | zero =>
    rw [loopCode] at h
    split at h
    case isTrue hf => exact ⟨s, hf, Option.some.inj h ▸ hs⟩
    case isFalse => cases h
  | succ fuel ih =>
    obtain ⟨hf, rfl⟩ | ⟨s', code', hstep, hcode', rfl⟩ := loopCode_cases h
    · exact ⟨s, hf, hs⟩
    · rw [run_append]
      exact ih hcode' (hP s s' c hs hstep)

/-- **What the moves of the loop give.** -/
theorem Inv.loop_moved (hL : Linked nodes) (hE : EarlyCycles nodes)
    (hsrc : ∀ nd ∈ nodes, nd.incomingVal = src nd.phi)
    (hs : Inv nodes s) (hm : Moved c₀ src (phisOf nodes s.order) s.curTmpVal c) {fuel : ℕ}
    {code : List (Move V)}
    (hcode : loopCode nodes fuel s = some code) :
    ∃ s', Finished nodes s' ∧ Inv nodes s' ∧ Moved c₀ src (phisOf nodes s'.order) s'.curTmpVal (run code c) :=
  loopCode_induction (P := fun s c => Inv nodes s ∧ Moved c₀ src (phisOf nodes s.order) s.curTmpVal c)
    (fun _ _ _ h hstep => ⟨h.1.step hL (h.1.breaks hL hE) hstep,
      h.1.step_moved hL hsrc (h.1.breaks hL hE) hstep h.2⟩)
    hcode ⟨hs, hm⟩

theorem not_finished_of_step (h : step nodes s = some s') : ¬ Finished nodes s := by
  rintro ⟨hready, hdone⟩
  simp [step, hready, hdone] at h

/-- A run that ends gives code. -/
theorem exists_loopCode (h : Reachable nodes s s') (hf : Finished nodes s') : ∃ fuel code,
    loopCode nodes fuel s = some code := by
  induction h using Relation.ReflTransGen.head_induction_on with
  | refl => exact ⟨0, [], by rw [loopCode, if_pos hf]⟩
  | @head a b hstep _ ih =>
    obtain ⟨fuel, code, hcode⟩ := ih
    exact ⟨fuel + 1, stepCode nodes a ++ code, by simp [loopCode, not_finished_of_step hstep, hstep, hcode]⟩

end

/-! ### A late cycle -/

section
variable {nodes : List (NodeEntry V)} {s s' : State V} {c₀ : ℕ}

/-- The phis of the nodes on a cycle. -/
def CyclePhi (nodes : List (NodeEntry V)) (c₀ : ℕ) (v : V) : Prop :=
  ∃ d nd, Reaches (reads nodes) c₀ d ∧ nodes[d]? = some nd ∧ nd.phi = v

/-- The nodes of the cycle wait or are ready, and none of their phis is saved. -/
structure Untouched (nodes : List (NodeEntry V)) (c₀ : ℕ) (s : State V) : Prop where
  size : nodes.length ≤ 64 * s.waitingNodes.data.length
  waiting : ∀ d, Reaches (reads nodes) c₀ d → d ∈ s.readyIndices ∨ s.waitingNodes.isSet d = true
  tmp : ∀ v, s.curTmpVal = some v → ¬ CyclePhi nodes c₀ v

/-- A phi on the cycle has its node there. -/
theorem cyclePhi_iff (hL : Linked nodes) {d : ℕ} {nd : NodeEntry V} (hnd : nodes[d]? = some nd) :
    CyclePhi nodes c₀ nd.phi ↔ Reaches (reads nodes) c₀ d := by
  constructor
  · rintro ⟨e, it, he, hit, hphi⟩
    exact hL.phi_inj e d it nd hit hnd hphi ▸ he
  · exact fun h => ⟨d, nd, h, hnd, rfl⟩

/-- The value of a phi on the cycle is the phi of the next one. -/
theorem cyclePhi_incoming (hL : Linked nodes) (hc : OnCycle (reads nodes) c₀) {d : ℕ} {nd : NodeEntry V}
    (hnd : nodes[d]? = some nd) (hd : CyclePhi nodes c₀ nd.phi) : CyclePhi nodes c₀ nd.incomingVal ∧
      nd.incomingVal ≠ nd.phi := by
  obtain ⟨e, he, hr⟩ := hc.exists_next ((cyclePhi_iff hL hnd).mp hd)
  obtain ⟨nd', it, hd', hit, hin, hne⟩ := (hL.reads_iff d e).mp hr
  obtain rfl := Option.some.inj (hnd.symm.trans hd')
  exact ⟨⟨e, it, he, hit, hin.symm⟩, fun h => hne (hL.phi_inj d e nd it hnd hit (h.symm.trans hin))⟩

/-- The nodes of the cycle wait before the loop. -/
theorem Untouched.init {refCount : ℕ → ℕ} (hL : Linked nodes)
    (hrc : ∀ k, refCount k = (pending nodes [] k).card)
    (hc : OnCycle (reads nodes) c₀) : Untouched nodes c₀ (State.init nodes refCount) where
  size := (Inv.init hrc).size
  waiting d hd := by
    obtain ⟨e, -, he⟩ := hc.exists_source hd
    have hlt := (reads_lt hL he).2.1
    by_cases h : d ∈ (State.init nodes refCount).readyIndices
    · exact .inl h
    · exact .inr (((Inv.init hrc).waiting d).mpr ⟨hlt, by simpa [State.init] using h⟩)
  tmp v hv := by cases hv

/-- **The bit set does not yield a node of a late cycle**: they all wait, and what it yields
for one of them is a number below it. -/
theorem Untouched.firstSet (h : Untouched nodes c₀ s) (hlate : ∀ d, Reaches (reads nodes) c₀ d → 64 ≤ d)
    (hready : s.readyIndices = []) {k : ℕ} (hfirst : s.waitingNodes.firstSet = some k) :
      ¬ Reaches (reads nodes) c₀ k := by
  intro hk
  have hset : s.waitingNodes.isSet k = true := (h.waiting k hk).resolve_left (by simp [hready])
  obtain ⟨m, hmk, hm, hlow⟩ := s.waitingNodes.exists_lowest hset
  have hkm : k = m / 64 + m % 64 := Option.some.inj (hfirst.symm.trans (s.waitingNodes.firstSet_eq hm hlow))
  have := hlate k hk
  omega

/-- Saving a node that is not on the cycle. -/
theorem Untouched.breakCycle (hL : Linked nodes) (h : Untouched nodes c₀ s)
    (hready : s.readyIndices = []) {k : ℕ}
    {nd : NodeEntry V} (hfirst : s.waitingNodes.firstSet = some k) (hnd : nodes[k]? = some nd)
    (hk : ¬ Reaches (reads nodes) c₀ k) (hstep : breakCycle nodes s = some s') : Untouched nodes c₀ s' := by
  have hsize := h.size
  have hlt := (List.getElem?_eq_some_iff.mp hnd).1
  simp only [Compiler.breakCycle, hfirst, hnd, Option.some.injEq] at hstep
  subst hstep
  refine ⟨by simpa using hsize, fun d hd => ?_, fun v hv => ?_⟩
  · refine .inr ?_
    rw [SmallBitSet.isSet_markUnset _ (by omega), Bool.and_eq_true, decide_eq_true_eq]
    refine ⟨(h.waiting d hd).resolve_left (by simp [hready]), ?_⟩
    rintro rfl
    exact hk hd
  · rw [← Option.some.inj hv, cyclePhi_iff hL hnd]
    exact hk

/-- What the run has done to the phis of the cycle: nothing yet, or the value that one of
them had is gone. -/
def Spoilt (nodes : List (NodeEntry V)) (c₀ : ℕ) (s : State V) (c : Cells V V) : Prop :=
  (Untouched nodes c₀ s ∧ ∀ v, CyclePhi nodes c₀ v → c.val v = v) ∨
  ∃ x, CyclePhi nodes c₀ x ∧ Lost (CyclePhi nodes c₀) x s.curTmpVal c

/-- What is spoilt does not have its values. -/
theorem Spoilt.not_assigned (hL : Linked nodes) (hc : OnCycle (reads nodes) c₀) {c : Cells V V}
    (h : Spoilt nodes c₀ s c) :
    ∃ nd ∈ nodes, c.val nd.phi ≠ nd.incomingVal := by
  rcases h with ⟨-, hval⟩ | ⟨x, ⟨d, nd, hd, hnd, rfl⟩, hl⟩
  · obtain ⟨e, -, he⟩ := hc.exists_source hc
    obtain ⟨nd, hnd⟩ : ∃ nd, nodes[c₀]? = some nd := ⟨_, List.getElem?_eq_getElem (reads_lt hL he).2.1⟩
    have hcyc := (cyclePhi_iff hL hnd).mpr hc
    exact ⟨nd, List.mem_of_getElem? hnd, by rw [hval _ hcyc]; exact (cyclePhi_incoming hL hc hnd hcyc).2.symm⟩
  · -- The phi that reads the lost one.
    obtain ⟨e, he, hr⟩ := hc.exists_source hd
    obtain ⟨nd', it, he', hit, hin, -⟩ := (hL.reads_iff e d).mp hr
    obtain rfl := Option.some.inj (hnd.symm.trans hit)
    refine ⟨nd', List.mem_of_getElem? he', ?_⟩
    rw [hin]
    exact hl.val _ ((cyclePhi_iff hL he').mpr he)

variable [DecidableEq V]

/-- A node that is handled makes at most the one that it reads ready. -/
theorem handle_ready (cur : ℕ) :
    ((handle nodes s cur).readyIndices = s.readyIndices ∧
      (handle nodes s cur).waitingNodes = s.waitingNodes) ∨
    ∃ it, reads nodes cur = some it ∧ (handle nodes s cur).readyIndices = s.readyIndices ++ [it] ∧
      (handle nodes s cur).waitingNodes = s.waitingNodes.markUnset it := by
  cases hnd : nodes[cur]? with
  | none => simp [handle, hnd]
  | some nd =>
    by_cases hself : nd.incomingVal = nd.phi
    · simp [handle, hnd, hself]
    by_cases htmp : s.curTmpVal = some nd.incomingVal
    · simp [handle_of_tmp hnd hself htmp]
    cases hr : reads nodes cur with
    | none =>
      obtain ⟨taken, -, heq⟩ := handle_of_reads_none hnd (.inl htmp) hr
      simp [heq]
    | some it =>
      rw [handle_of_reads hnd hself htmp hr]
      by_cases h0 : decRef (s.refCount it) = 0
      · exact .inr ⟨it, rfl, by simp [h0], by simp [h0]⟩
      · exact .inl ⟨by simp [h0], by simp [h0]⟩

/-- Handling a node that is not on the cycle. -/
theorem Untouched.handle (hL : Linked nodes) (h : Untouched nodes c₀ s) {cur : ℕ} {rest : List ℕ}
    (hready : s.readyIndices = cur :: rest) (hcur : ¬ Reaches (reads nodes) c₀ cur) :
    Untouched nodes c₀ (handle nodes { s with readyIndices := rest } cur) := by
  have hsize := h.size
  have hwait : ∀ d, Reaches (reads nodes) c₀ d → d ∈ rest ∨ s.waitingNodes.isSet d = true := by
    intro d hd
    rcases h.waiting d hd with hd' | hd'
    · rw [hready, List.mem_cons] at hd'
      exact .inl (hd'.resolve_left fun heq => hcur (heq ▸ hd))
    · exact .inr hd'
  have htmp : ∀ v, (Compiler.handle nodes { s with readyIndices := rest } cur).curTmpVal = some v →
    ¬ CyclePhi nodes c₀ v :=
    fun v hv => h.tmp v (handle_curTmpVal (s := { s with readyIndices := rest }) hv)
  obtain ⟨hr, hw⟩ | ⟨it, hit, hr, hw⟩ := @handle_ready _ nodes { s with readyIndices := rest } _ cur
  · exact ⟨by rw [hw]; exact hsize, fun d hd => by rw [hr, hw]; exact hwait d hd, htmp⟩
  · refine ⟨by rw [hw, SmallBitSet.length_markUnset]; exact hsize, fun d hd => ?_, htmp⟩
    rw [hr, hw, SmallBitSet.isSet_markUnset _ (by have := (reads_lt hL hit).2.1; dsimp only; omega),
      List.mem_append,
      List.mem_singleton, Bool.and_eq_true, decide_eq_true_eq]
    have := hwait d hd
    tauto

/-- What is lost stays lost when a node is handled. -/
theorem lost_handle (hL : Linked nodes) (hc : OnCycle (reads nodes) c₀) {x : V} {c : Cells V V} (cur : ℕ)
    (h : Lost (CyclePhi nodes c₀) x s.curTmpVal c) :
    Lost (CyclePhi nodes c₀) x (handle nodes s cur).curTmpVal (run (handleCode nodes s cur) c) := by
  cases hnd : nodes[cur]? with
  | none =>
    have hcode : handleCode nodes s cur = [] := by simp [handleCode, hnd]
    have htmp : (handle nodes s cur).curTmpVal = s.curTmpVal := by simp [handle, hnd]
    rw [hcode, htmp]
    exact h
  | some nd =>
    have hin : CyclePhi nodes c₀ nd.phi → CyclePhi nodes c₀ nd.incomingVal :=
      fun hd => (cyclePhi_incoming hL hc hnd hd).1
    obtain ⟨-, hcode, htmp⟩ | ⟨hsaved, hcode, htmp⟩ | ⟨-, hcode, htmp⟩ := handleCode_cases (s := s) hnd
    · rw [hcode, htmp]
      exact h
    · rw [hcode, htmp]
      rw [hsaved] at h
      exact h.restore hin
    · rw [hcode, htmp]
      exact h.move hin

/-- The first move to a phi of the cycle: its own value is gone. -/
theorem lost_of_untouched (hL : Linked nodes) (hc : OnCycle (reads nodes) c₀) {c : Cells V V}
    (htmp : ∀ v, s.curTmpVal = some v → ¬ CyclePhi nodes c₀ v) (hval : ∀ v, CyclePhi nodes c₀ v →
      c.val v = v) {cur : ℕ} {nd : NodeEntry V} (hnd : nodes[cur]? = some nd)
    (hcur : CyclePhi nodes c₀ nd.phi) :
    Lost (CyclePhi nodes c₀) nd.phi (Compiler.handle nodes s cur).curTmpVal
      (run (handleCode nodes s cur) c) := by
  obtain ⟨hin, hne⟩ := cyclePhi_incoming hL hc hnd hcur
  obtain ⟨hself, -⟩ | ⟨hsaved, -⟩ | ⟨-, hcode, hkeep⟩ := handleCode_cases (s := s) hnd
  · exact absurd hself hne
  · exact absurd hin (htmp _ hsaved)
  · rw [hcode, hkeep]
    refine ⟨fun v hv => ?_, fun v hv hS => absurd hS (htmp v hv)⟩
    by_cases heq : v = nd.phi
    · subst heq
      simp [Move.exec, hval _ hin, hne]
    · simp [Move.exec, heq, hval v hv]

/-- Handling a node leaves the cycle alone, or loses a value of it. -/
theorem Spoilt.handle (hL : Linked nodes) (hc : OnCycle (reads nodes) c₀) {c : Cells V V}
    (h : Spoilt nodes c₀ s c) {cur : ℕ}
    {rest : List ℕ} (hready : s.readyIndices = cur :: rest) :
    Spoilt nodes c₀ (handle nodes { s with readyIndices := rest } cur)
      (run (handleCode nodes { s with readyIndices := rest } cur) c) := by
  rcases h with ⟨hu, hval⟩ | ⟨x, hx, hl⟩
  · cases hnd : nodes[cur]? with
    | none =>
      have hcur : ¬ Reaches (reads nodes) c₀ cur := fun hd => by
        obtain ⟨e, -, he⟩ := hc.exists_source hd
        rw [List.getElem?_eq_getElem (reads_lt hL he).2.1] at hnd
        cases hnd
      have hcode : handleCode nodes { s with readyIndices := rest } cur = [] := by simp [handleCode, hnd]
      rw [hcode]
      exact .inl ⟨hu.handle hL hready hcur, hval⟩
    | some nd =>
      by_cases hcur : CyclePhi nodes c₀ nd.phi
      · exact .inr ⟨nd.phi, hcur, lost_of_untouched (s := { s with
          readyIndices := rest }) hL hc hu.tmp hval hnd hcur⟩
      · refine .inl ⟨hu.handle hL hready fun h => hcur ((cyclePhi_iff hL hnd).mpr h), fun v hv => ?_⟩
        have hne : v ≠ nd.phi := by
          rintro rfl
          exact hcur hv
        obtain ⟨-, hcode, -⟩ | ⟨-, hcode, -⟩ | ⟨-, hcode, -⟩ :=
          handleCode_cases (s := { s with readyIndices := rest }) hnd
        all_goals
          rw [hcode]
          simp [Move.exec, hne, hval v hv]
  · exact .inr ⟨x, hx, lost_handle (s := { s with readyIndices := rest }) hL hc cur hl⟩

/-- **No step brings a late cycle nearer to its values.** -/
theorem Spoilt.step (hL : Linked nodes) (hc : OnCycle (reads nodes) c₀)
    (hlate : ∀ d, Reaches (reads nodes) c₀ d → 64 ≤ d)
    {c : Cells V V} (h : Spoilt nodes c₀ s c) (hstep : step nodes s = some s') :
      Spoilt nodes c₀ s' (run (stepCode nodes s) c) := by
  obtain ⟨cur, rest, hready, rfl⟩ | ⟨hready, -, hstep⟩ := step_cases hstep
  · have hcode : stepCode nodes s = handleCode nodes { s with readyIndices := rest } cur := by
      rw [stepCode, hready]
      rfl
    rw [hcode]
    exact h.handle hL hc hready
  · obtain ⟨k, nd, hfirst, hnd, htmp⟩ : ∃ k nd, s.waitingNodes.firstSet = some k ∧ nodes[k]? = some nd ∧
        s'.curTmpVal = some nd.phi := by
      simp only [Compiler.breakCycle] at hstep
      split at hstep
      · cases hstep
      · split at hstep
        · cases hstep
        · exact ⟨_, _, ‹_›, ‹_›, by rw [← Option.some.inj hstep]⟩
    have hcode : stepCode nodes s = [.save nd.phi] := by simp [stepCode, hready, breakCode, hfirst, hnd]
    rw [hcode]
    rcases h with ⟨hu, hval⟩ | ⟨x, hx, hl⟩
    · exact .inl ⟨hu.breakCycle hL hready hfirst hnd (hu.firstSet hlate hready hfirst) hstep, hval⟩
    · refine .inr ⟨x, hx, ?_⟩
      rw [htmp]
      exact hl.save

end

/-! ### The procedure -/

namespace Phis

variable [DecidableEq V] (A : Phis V)

theorem incomingVal_eq {nd : NodeEntry V} (h : nd ∈ A.nodes) :
    nd.incomingVal = A.incomingValForBlock nd.phi := by
  obtain ⟨i, hi⟩ := List.mem_iff_getElem?.mp h
  exact (A.nodes_eq_some hi).2.1

theorem mem_map_phi (v : V) : v ∈ A.nodes.map (·.phi) ↔ v ∈ A.blockPhis := by
  rw [List.mem_map]
  constructor
  · rintro ⟨nd, hnd, rfl⟩
    obtain ⟨i, hi⟩ := List.mem_iff_getElem?.mp hnd
    exact (A.nodes_eq_some hi).1
  · intro hv
    obtain ⟨i, nd, hnd, hphi⟩ := A.exists_node hv
    exact ⟨nd, List.mem_of_getElem? hnd, hphi⟩

/-- At the end every phi was handled. -/
theorem mem_phisOf_iff {s : State V} (hs : Inv A.nodes s) (hf : Finished A.nodes s) (v : V) :
    v ∈ phisOf A.nodes s.order ↔ v ∈ A.blockPhis := by
  rw [mem_phisOf]
  constructor
  · rintro ⟨i, nd, -, hnd, rfl⟩
    exact (A.nodes_eq_some hnd).1
  · intro hv
    obtain ⟨i, nd, hnd, hphi⟩ := A.exists_node hv
    exact ⟨i, nd, hs.all_handled_iff.mpr hf.2 i (List.getElem?_eq_some_iff.mp hnd).1, hnd, hphi⟩

/-- Where no phi reads another one, the order does not matter. -/
theorem assigns_of_not_reads (h : ∀ i k, reads A.nodes i ≠ some k) :
    Assigns (A.nodes.flatMap NodeEntry.moveToPhi) A.blockPhis A.incomingValForBlock := by
  have hcode : A.nodes.flatMap NodeEntry.moveToPhi =
      (A.nodes.map (·.phi)).flatMap (moveUnlessSelf A.incomingValForBlock) := by
    rw [List.flatMap_map]
    refine List.flatMap_congr fun nd hnd => ?_
    rw [NodeEntry.moveToPhi, moveUnlessSelf, A.incomingVal_eq hnd]
  rw [hcode]
  intro W c v
  rw [assigns_of_apart ?_ W c v]
  · simp only [A.mem_map_phi]
  · intro p hp hsrc
    obtain ⟨i, nd, hi, rfl⟩ := A.exists_node ((A.mem_map_phi p).mp hp)
    obtain ⟨k, it, hk, hit⟩ := A.exists_node ((A.mem_map_phi _).mp hsrc)
    have hin := A.incomingVal_eq (List.mem_of_getElem? hi)
    by_cases hik : i = k
    · subst hik
      rw [← hit, Option.some.inj (hi.symm.trans hk)]
    · exact absurd ((A.linked.reads_iff i k).mpr ⟨nd, it, hi, hk, hin.trans hit.symm, hik⟩) (h i k)

/-- One phi reads no other one. -/
theorem not_reads_of_single (h : A.nodes.length = 1) (i k : ℕ) : reads A.nodes i ≠ some k := by
  intro hr
  have := reads_lt A.linked hr
  omega

/-- Where no phi is counted, none is read. -/
theorem not_reads_of_zero (h : ∀ i < A.nodes.length, A.refCounts i = 0) (i k : ℕ) :
    reads A.nodes i ≠ some k := by
  intro hr
  have hcard := h k (reads_lt A.linked hr).2.1
  rw [refCounts_eq, Finset.card_eq_zero] at hcard
  have hmem : i ∈ pending A.nodes [] k := (mem_pending A.linked).mpr ⟨List.not_mem_nil, hr⟩
  rw [hcard] at hmem
  exact absurd hmem (Finset.notMem_empty i)

/-- Where every cycle has a phi below 64, the loop gives the phis their values. -/
theorem loop_assigns (hE : EarlyCycles A.nodes) {fuel : ℕ} {code : List (Move V)}
    (hcode : loopCode A.nodes fuel (.init A.nodes A.refCounts) = some code) :
    Assigns code A.blockPhis A.incomingValForBlock := by
  intro W c v
  obtain ⟨s, hf, hs, hm⟩ :=
    (Inv.init A.refCounts_eq).loop_moved A.linked hE (fun nd hnd => A.incomingVal_eq hnd)
    (.init c A.incomingValForBlock) hcode
  rw [hm.val v]
  simp only [A.mem_phisOf_iff hs hf]

/-- Where a cycle has none, the loop does not. -/
theorem not_loop_assigns {c₀ : ℕ} (hc : OnCycle (reads A.nodes) c₀)
    (hlate : ∀ d, Reaches (reads A.nodes) c₀ d → 64 ≤ d)
    {fuel : ℕ} {code : List (Move V)} (hcode : loopCode A.nodes fuel (.init A.nodes A.refCounts) =
      some code) :
    ¬ Assigns code A.blockPhis A.incomingValForBlock := by
  intro hA
  obtain ⟨e, -, he⟩ := hc.exists_source hc
  have hlt := (reads_lt A.linked he).2.1
  -- Every value is itself, so that a value tells where it is from.
  let c : Cells V V := ⟨id, A.nodes[c₀].phi⟩
  have hinit : Spoilt A.nodes c₀ (.init A.nodes A.refCounts) c :=
    .inl ⟨.init A.linked A.refCounts_eq hc, fun _ _ => rfl⟩
  obtain ⟨s, -, hs⟩ := loopCode_induction (fun _ _ _ h hstep => h.step A.linked hc hlate hstep) hcode hinit
  obtain ⟨nd, hnd, hne⟩ := hs.not_assigned A.linked hc
  have hmem : nd.phi ∈ A.blockPhis := (A.mem_map_phi _).mp (List.mem_map_of_mem hnd)
  refine hne ?_
  rw [hA V c nd.phi, if_pos hmem, A.incomingVal_eq hnd]
  rfl

/-- **The moves give every phi the value that its incoming value had before them, and leave
the other values alone, exactly where every cycle of the phis has a node below 64.** -/
theorem moveToPhiNodes_assigns_iff :
    (∃ fuel code, A.moveToPhiNodes fuel = some code ∧ Assigns code A.blockPhis A.incomingValForBlock) ↔
      EarlyCycles A.nodes := by
  constructor
  · rintro ⟨fuel, code, hcode, hA⟩ c hc
    by_contra hlate
    push Not at hlate
    obtain ⟨e, -, he⟩ := hc.exists_source hc
    rw [moveToPhiNodes] at hcode
    split at hcode
    case isTrue h => exact A.not_reads_of_single h e c he
    case isFalse =>
      split at hcode
      case isTrue h => exact A.not_reads_of_zero h e c he
      case isFalse => exact A.not_loop_assigns hc hlate hcode hA
  · intro hE
    by_cases h1 : A.nodes.length = 1
    · exact ⟨0, _, by rw [moveToPhiNodes, if_pos h1], A.assigns_of_not_reads (A.not_reads_of_single h1)⟩
    by_cases hz : ∀ i < A.nodes.length, A.refCounts i = 0
    · exact ⟨0, _, by rw [moveToPhiNodes, if_neg h1, if_pos hz],
        A.assigns_of_not_reads (A.not_reads_of_zero hz)⟩
    obtain ⟨s, hr, hf⟩ := (Inv.init A.refCounts_eq).finishes A.linked hE
    obtain ⟨fuel, code, hcode⟩ := exists_loopCode hr hf
    exact ⟨fuel, code, by rw [moveToPhiNodes, if_neg h1, if_neg hz, hcode], A.loop_assigns hE hcode⟩

/-- A third phi reads one of two that read each other. -/
def swapped : Phis ℕ where
  blockPhis := [0, 1, 2]
  incomingValForBlock p := if p = 0 then 1 else 0
  valIsPhi v := v < 3
  valLocalIdx v := v
  nodup := by decide
  isPhi_of_mem p hp := by simp at hp ⊢; omega
  localIdx_inj _ _ _ _ h := h

example : swapped.moveToPhiNodes 7 = some [.move 2 0, .save 0, .move 0 1, .restore 1] := by decide +kernel

end Phis

end Tpde.Compiler
