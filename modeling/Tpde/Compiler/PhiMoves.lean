import Mathlib.Data.List.Sort
import Tpde.Library.FunctionalGraph
import Tpde.Util.SmallBitSet

/-!
# The order of the moves to phis

`move_to_phi_nodes_impl` moves to each phi of a block its value from one predecessor. A
phi that others read has to wait for them: the phis that wait for none are handled first,
and where all wait, they are on cycles, and one of each cycle is saved. It is found by
`first_set` of a bit set, which is right only for the first word of the set: every phi is
handled once exactly where every cycle has a phi among the first 64 (`accounts_iff`).
-/

namespace Tpde.Compiler

open Util FunctionalGraph

/-! ### The nodes -/

/-- The phis of a block, as the adaptor describes them for one edge into it. -/
structure Phis (V : Type) where
  blockPhis : List V
  incomingValForBlock : V → V
  valIsPhi : V → Bool
  valLocalIdx : V → ℕ
  nodup : blockPhis.Nodup
  isPhi_of_mem : ∀ p ∈ blockPhis, valIsPhi p = true
  localIdx_inj : ∀ p ∈ blockPhis, ∀ q, valIsPhi q = true → valLocalIdx p = valLocalIdx q → p = q

/-- A phi with its value. `incomingPhiLocalIdx` is the index of that value where it is
another phi of the block. -/
structure NodeEntry (V : Type) where
  phi : V
  incomingVal : V
  phiLocalIdx : ℕ
  incomingPhiLocalIdx : Option ℕ
  deriving DecidableEq, Repr

variable {V : Type}

/-- `std::lower_bound`: the first node whose index is not less. -/
def lowerBound (nodes : List (NodeEntry V)) (idx : ℕ) : ℕ :=
  nodes.findIdx fun nd => !decide (nd.phiLocalIdx < idx)

namespace Phis

variable (A : Phis V)

/-- The nodes, sorted by their indices. -/
def sorted : List (NodeEntry V) :=
  (A.blockPhis.map fun phi => ⟨phi, A.incomingValForBlock phi, A.valLocalIdx phi, none⟩).insertionSort
    fun a b => a.phiLocalIdx ≤ b.phiLocalIdx

/-- The value of a node as another phi of the block. -/
def incomingPhi [DecidableEq V] (nd : NodeEntry V) : Option ℕ :=
  if !A.valIsPhi nd.incomingVal || nd.incomingVal = nd.phi then none
  else
    let incLocalIdx := A.valLocalIdx nd.incomingVal
    match A.sorted[lowerBound A.sorted incLocalIdx]? with
    | none => none
    | some it => if it.phi ≠ nd.incomingVal then none else some incLocalIdx

/-- The nodes that the loop works on. -/
def nodes [DecidableEq V] : List (NodeEntry V) :=
  A.sorted.map fun nd => { nd with incomingPhiLocalIdx := A.incomingPhi nd }

/-- How many nodes read a node: `ref_count`. -/
def refCounts [DecidableEq V] : ℕ → ℕ :=
  A.nodes.foldl (fun refCount nd =>
    match nd.incomingPhiLocalIdx with
    | none => refCount
    | some idx =>
      let it := lowerBound A.nodes idx
      Function.update refCount it (refCount it + 1)) fun _ => 0

end Phis

/-! ### The loop -/

/-- The state of the loop. `consumed` has the references that were taken, and `order` the
nodes that were handled, as they were. -/
structure State (V : Type) where
  refCount : ℕ → ℕ
  readyIndices : List ℕ
  waitingNodes : SmallBitSet
  handledCount : ℕ
  curTmpVal : Option V
  consumed : List V
  order : List ℕ

/-- A count of 32 bits, minus one. -/
def decRef (refCount : ℕ) : ℕ := if refCount = 0 then 2 ^ 32 - 1 else refCount - 1

section
variable (nodes : List (NodeEntry V))

/-- The state before the loop, from the counts of the nodes. -/
def State.init (refCount : ℕ → ℕ) : State V :=
  let (ready, waiting) := (List.range nodes.length).foldl
    (fun (ready, waiting) i => if refCount i ≠ 0 then (ready, waiting.markSet i) else (ready ++ [i], waiting))
    ([], ({} : SmallBitSet).resize nodes.length)
  ⟨refCount, ready, waiting, 0, none, [], []⟩

/-- `move_to_phi` and what follows it, for the node with index `cur`: its value is the phi
itself, the saved one, or another. -/
def handle [DecidableEq V] (s : State V) (cur : ℕ) : State V :=
  let s := { s with handledCount := s.handledCount + 1, order := s.order ++ [cur] }
  match nodes[cur]? with
  | none => s
  | some nd =>
    if nd.incomingVal = nd.phi then { s with consumed := s.consumed ++ [nd.incomingVal, nd.phi] }
    else if some nd.incomingVal = s.curTmpVal then
      { s with consumed := s.consumed ++ [nd.phi], curTmpVal := none }
    else
      let s := { s with consumed := s.consumed ++ [nd.phi, nd.incomingVal] }
      match nd.incomingPhiLocalIdx with
      | none => s
      | some idx =>
        let it := lowerBound nodes idx
        let count := decRef (s.refCount it)
        let s := { s with refCount := Function.update s.refCount it count }
        if count = 0 then
          { s with readyIndices := s.readyIndices ++ [it], waitingNodes := s.waitingNodes.markUnset it }
        else s

/-- Saves the phi of a node, so that the node is ready. -/
def breakCycle (s : State V) : Option (State V) :=
  match s.waitingNodes.firstSet with
  | none => none
  | some cur =>
    match nodes[cur]? with
    | none => none
    | some nd =>
      some { s with
        consumed := s.consumed ++ [nd.phi]
        curTmpVal := some nd.phi
        refCount := Function.update s.refCount cur 0
        readyIndices := s.readyIndices ++ [cur]
        waitingNodes := s.waitingNodes.markUnset cur }

/-- The loop is over. -/
def Finished (s : State V) : Prop := s.readyIndices = [] ∧ s.handledCount = nodes.length

instance (s : State V) : Decidable (Finished nodes s) := inferInstanceAs (Decidable (_ ∧ _))

/-- One node is handled, or, where none is ready, one is saved. -/
def step [DecidableEq V] (s : State V) : Option (State V) :=
  match s.readyIndices with
  | cur :: rest => some (handle nodes { s with readyIndices := rest } cur)
  | [] => if s.handledCount = nodes.length then none else breakCycle nodes s

/-- The states of the loop. -/
def Reachable [DecidableEq V] (s₀ s : State V) : Prop :=
  Relation.ReflTransGen (fun s s' => step nodes s = some s') s₀ s

end

/-! ### The graph of the nodes -/

section
variable (nodes : List (NodeEntry V))

/-- The node that a node reads. -/
def reads (i : ℕ) : Option ℕ := (nodes[i]?).bind fun nd => nd.incomingPhiLocalIdx.map (lowerBound nodes)

/-- A node reads the other one whose phi is its value, and no two nodes have one phi. -/
structure Linked : Prop where
  reads_iff : ∀ i k, reads nodes i = some k ↔
    ∃ nd it : NodeEntry V, nodes[i]? = some nd ∧ nodes[k]? = some it ∧ nd.incomingVal = it.phi ∧ i ≠ k
  phi_inj : ∀ (i k : ℕ) (nd it : NodeEntry V), nodes[i]? = some nd → nodes[k]? = some it →
    nd.phi = it.phi → i = k

end

/-- In a list with rising indices the search finds a node by its index. -/
theorem lowerBound_eq {l : List (NodeEntry V)}
    (hl : l.Pairwise fun a b => a.phiLocalIdx < b.phiLocalIdx) {i : ℕ}
    {nd : NodeEntry V} (hi : l[i]? = some nd) : lowerBound l nd.phiLocalIdx = i := by
  obtain ⟨hlt, rfl⟩ := List.getElem?_eq_some_iff.mp hi
  rw [lowerBound, List.findIdx_eq hlt]
  refine ⟨by simp, fun j hj => ?_⟩
  have := List.pairwise_iff_getElem.mp hl j i (by omega) hlt hj
  simpa using this

theorem lowerBound_map (l : List (NodeEntry V)) (f : NodeEntry V → NodeEntry V)
    (hf : ∀ nd, (f nd).phiLocalIdx = nd.phiLocalIdx)
    (idx : ℕ) : lowerBound (l.map f) idx = lowerBound l idx := by
  simp [lowerBound, List.findIdx_map, Function.comp_def, hf]

namespace Phis

variable (A : Phis V)

theorem sorted_perm :
    A.sorted.Perm (A.blockPhis.map fun phi => ⟨phi, A.incomingValForBlock phi, A.valLocalIdx phi, none⟩) :=
  List.perm_insertionSort _ _

theorem mem_sorted {nd : NodeEntry V} : nd ∈ A.sorted ↔
    ∃ phi ∈ A.blockPhis, nd = ⟨phi, A.incomingValForBlock phi, A.valLocalIdx phi, none⟩ := by
  rw [A.sorted_perm.mem_iff, List.mem_map]
  exact ⟨fun ⟨p, hp, h⟩ => ⟨p, hp, h.symm⟩, fun ⟨p, hp, h⟩ => ⟨p, hp, h.symm⟩⟩

/-- The indices of the sorted nodes rise. -/
theorem sorted_pairwise : A.sorted.Pairwise fun a b => a.phiLocalIdx < b.phiLocalIdx := by
  have hle : A.sorted.Pairwise fun a b => a.phiLocalIdx ≤ b.phiLocalIdx := by
    have : Std.Total fun a b : NodeEntry V => a.phiLocalIdx ≤ b.phiLocalIdx := ⟨fun a b => le_total _ _⟩
    have : IsTrans (NodeEntry V) fun a b => a.phiLocalIdx ≤ b.phiLocalIdx := ⟨fun a b c => le_trans⟩
    exact List.pairwise_insertionSort _ _
  have hne : A.sorted.Pairwise fun a b => a.phiLocalIdx ≠ b.phiLocalIdx := by
    rw [A.sorted_perm.pairwise_iff fun h => h.symm, List.pairwise_map]
    exact A.nodup.imp_of_mem fun ha hb hne h => hne (A.localIdx_inj _ ha _ (A.isPhi_of_mem _ hb) h)
  exact (hle.and hne).imp fun h => lt_of_le_of_ne h.1 h.2

variable [DecidableEq V]

/-- A value that is another phi of the block is found. -/
theorem incomingPhi_eq_some_iff {nd : NodeEntry V} {idx : ℕ} : A.incomingPhi nd = some idx ↔
    idx = A.valLocalIdx nd.incomingVal ∧ nd.incomingVal ∈ A.blockPhis ∧ nd.incomingVal ≠ nd.phi := by
  rw [incomingPhi]
  by_cases hmem : nd.incomingVal ∈ A.blockPhis
  · obtain ⟨i, hi⟩ := List.mem_iff_getElem?.mp (A.mem_sorted.mpr ⟨_, hmem, rfl⟩)
    have hlb := lowerBound_eq A.sorted_pairwise hi
    have hphi := A.isPhi_of_mem _ hmem
    simp only at hlb
    by_cases hself : nd.incomingVal = nd.phi
    · simp [hself]
    · simp [hphi, hself, hlb, hi, hmem, eq_comm]
  · simp only [hmem, false_and, and_false, iff_false]
    split
    · simp
    · split
      · simp
      · rename_i it hit
        have hit' := A.mem_sorted.mp (List.mem_of_getElem? hit)
        obtain ⟨p, hp, rfl⟩ := hit'
        have : p ≠ nd.incomingVal := by
          rintro rfl
          exact hmem hp
        simp [this]

theorem nodes_getElem? (i : ℕ) :
    A.nodes[i]? = (A.sorted[i]?).map fun nd => { nd with incomingPhiLocalIdx := A.incomingPhi nd } := by
  rw [nodes, List.getElem?_map]

theorem nodes_eq_some {i : ℕ} {nd : NodeEntry V} (h : A.nodes[i]? = some nd) :
    nd.phi ∈ A.blockPhis ∧ nd.incomingVal = A.incomingValForBlock nd.phi ∧
      A.sorted[i]? = some ⟨nd.phi, nd.incomingVal, A.valLocalIdx nd.phi, none⟩ ∧
      nd.incomingPhiLocalIdx = A.incomingPhi nd := by
  rw [A.nodes_getElem?] at h
  obtain ⟨nd', hi, rfl⟩ := Option.map_eq_some_iff.mp h
  obtain ⟨p, hp, rfl⟩ := A.mem_sorted.mp (List.mem_of_getElem? hi)
  exact ⟨hp, rfl, hi, rfl⟩

theorem lowerBound_nodes {i : ℕ} {nd : NodeEntry V} (h : A.nodes[i]? = some nd) :
    lowerBound A.nodes (A.valLocalIdx nd.phi) = i := by
  obtain ⟨-, -, hi, -⟩ := A.nodes_eq_some h
  rw [← lowerBound_eq A.sorted_pairwise hi]
  exact lowerBound_map A.sorted (fun nd => { nd with
    incomingPhiLocalIdx := A.incomingPhi nd }) (fun _ => rfl) _

theorem exists_node {p : V} (hp : p ∈ A.blockPhis) : ∃ (i : ℕ) (nd : NodeEntry V),
    A.nodes[i]? = some nd ∧ nd.phi = p := by
  obtain ⟨i, hi⟩ := List.mem_iff_getElem?.mp (A.mem_sorted.mpr ⟨p, hp, rfl⟩)
  exact ⟨i, _, (A.nodes_getElem? i).trans (by rw [hi, Option.map_some]), rfl⟩

/-- The search for the values gives the graph of the nodes. -/
theorem linked : Linked A.nodes := by
  have hinj : ∀ (i k : ℕ) (nd it : NodeEntry V), A.nodes[i]? = some nd → A.nodes[k]? = some it →
    nd.phi = it.phi → i = k :=
    fun i k nd it hi hk h => by rw [← A.lowerBound_nodes hi, ← A.lowerBound_nodes hk, h]
  refine ⟨fun i k => ?_, hinj⟩
  constructor
  · intro h
    obtain ⟨nd, hi, h⟩ := Option.bind_eq_some_iff.mp h
    obtain ⟨idx, hidx, rfl⟩ := Option.map_eq_some_iff.mp h
    rw [(A.nodes_eq_some hi).2.2.2, incomingPhi_eq_some_iff] at hidx
    obtain ⟨rfl, hmem, hne⟩ := hidx
    obtain ⟨k, it, hk, hphi⟩ := A.exists_node hmem
    rw [← hphi, A.lowerBound_nodes hk]
    refine ⟨nd, it, hi, hk, hphi.symm, ?_⟩
    rintro rfl
    rw [hi] at hk
    exact hne (by rw [← hphi, Option.some.inj hk])
  · rintro ⟨nd, it, hi, hk, hinc, hne⟩
    have hidx : nd.incomingPhiLocalIdx = some (A.valLocalIdx nd.incomingVal) := by
      rw [(A.nodes_eq_some hi).2.2.2, incomingPhi_eq_some_iff]
      refine ⟨rfl, hinc ▸ (A.nodes_eq_some hk).1, fun h => hne (hinj i k nd it hi hk ?_)⟩
      rw [← h, hinc]
    rw [reads, hi, Option.bind_some, hidx, Option.map_some, hinc, A.lowerBound_nodes hk]

end Phis

/-! ### The counts -/

section
variable {nodes : List (NodeEntry V)}

theorem reads_lt (hL : Linked nodes) {i k : ℕ} (h : reads nodes i = some k) : i < nodes.length ∧
    k < nodes.length ∧ i ≠ k := by
  obtain ⟨nd, it, hi, hk, -, hne⟩ := (hL.reads_iff i k).mp h
  exact ⟨(List.getElem?_eq_some_iff.mp hi).1, (List.getElem?_eq_some_iff.mp hk).1, hne⟩

/-- The nodes that read a node and are not handled yet. -/
def pending (nodes : List (NodeEntry V)) (order : List ℕ) (k : ℕ) : Finset ℕ :=
  (Finset.range nodes.length).filter fun j => j ∉ order ∧ reads nodes j = some k

theorem mem_pending (hL : Linked nodes) {order : List ℕ} {j k : ℕ} :
    j ∈ pending nodes order k ↔ j ∉ order ∧ reads nodes j = some k := by
  rw [pending, Finset.mem_filter, Finset.mem_range]
  exact ⟨fun h => h.2, fun h => ⟨(reads_lt hL h.2).1, h⟩⟩

/-- Handling a node takes it from those that read the same node. -/
theorem pending_snoc (order : List ℕ) (i k : ℕ) :
    pending nodes (order ++ [i]) k = (pending nodes order k).erase i := by
  ext j
  simp only [pending, Finset.mem_filter, Finset.mem_range, Finset.mem_erase, List.mem_append,
    List.mem_singleton]
  tauto

/-- Counting the elements of a list that have a property. -/
theorem countP_eq_card {α : Type} (p : α → Bool) (l : List α) :
    l.countP p = ((Finset.range l.length).filter fun i => (l[i]?).any p).card := by
  induction l using List.reverseRecOn with
  | nil => rfl
  | append_singleton l a ih =>
    have hset : ((Finset.range l.length).filter fun i => ((l ++ [a])[i]?).any p) =
        (Finset.range l.length).filter fun i => (l[i]?).any p := by
      refine Finset.filter_congr fun i hi => ?_
      rw [List.getElem?_append_left (Finset.mem_range.mp hi)]
    rw [List.countP_append, ih, List.length_append, List.length_singleton, Finset.range_add_one,
      Finset.filter_insert, hset]
    by_cases ha : p a = true
    · simp [ha]
    · simp [ha]

/-- The fold over the nodes counts those that read a node. -/
theorem foldl_refCounts (all l : List (NodeEntry V)) (refCount : ℕ → ℕ) (k : ℕ) :
    l.foldl (fun refCount nd =>
      match nd.incomingPhiLocalIdx with
      | none => refCount
      | some idx =>
        let it := lowerBound all idx
        Function.update refCount it (refCount it + 1)) refCount k =
      refCount k + l.countP fun nd => nd.incomingPhiLocalIdx.map (lowerBound all) = some k := by
  induction l generalizing refCount with
  | nil => rfl
  | cons nd l ih =>
    rw [List.foldl_cons, ih, List.countP_cons]
    cases h : nd.incomingPhiLocalIdx with
    | none => simp
    | some idx =>
      by_cases hk : lowerBound all idx = k
      · simp [hk]
        omega
      · simp [hk, Function.update_of_ne (Ne.symm hk)]

end

/-- The counts before the loop. -/
theorem Phis.refCounts_eq [DecidableEq V] (A : Phis V) (k : ℕ) :
    A.refCounts k = (pending A.nodes [] k).card := by
  rw [refCounts, foldl_refCounts, countP_eq_card, Nat.zero_add, pending]
  congr 1
  refine Finset.filter_congr fun i _ => ?_
  simp [reads, Option.any_eq_true, Option.bind_eq_some_iff]

/-! ### The invariant -/

section
variable (nodes : List (NodeEntry V))

/-- The references that a node takes: one of its phi and one of its value. -/
def refs (i : ℕ) : List V :=
  match nodes[i]? with
  | none => []
  | some nd => [nd.phi, nd.incomingVal]

/-- Every node is handled, ready or waiting. It waits while nodes read it that are not
handled, but for the saved one, of which one reader is left. -/
structure Inv (s : State V) : Prop where
  nodup : (s.order ++ s.readyIndices).Nodup
  lt : ∀ i ∈ s.order ++ s.readyIndices, i < nodes.length
  handled : s.handledCount = s.order.length
  size : nodes.length ≤ 64 * s.waitingNodes.data.length
  waiting : ∀ i, s.waitingNodes.isSet i = true ↔ i < nodes.length ∧ i ∉ s.order ++ s.readyIndices
  zero : ∀ i ∈ s.order ++ s.readyIndices, s.refCount i = 0
  pos : ∀ i < nodes.length, i ∉ s.order ++ s.readyIndices → 0 < s.refCount i
  counts : ∀ i nd, nodes[i]? = some nd → s.curTmpVal ≠ some nd.phi →
    s.refCount i = (pending nodes s.order i).card
  tmp : ∀ v, s.curTmpVal = some v → ∃ c nd j, nodes[c]? = some nd ∧ v = nd.phi ∧
    c ∈ s.order ++ s.readyIndices ∧
    pending nodes s.order c = {j}
  consumed : s.consumed.Perm (s.order.flatMap (refs nodes) ++ s.curTmpVal.toList)

end

section
variable {nodes : List (NodeEntry V)} {s s' : State V}

/-- What the first loop sorts the nodes into. -/
theorem foldl_init (refCount : ℕ → ℕ) (n : ℕ) (waiting : SmallBitSet) (m : ℕ) (hm : m ≤ n)
    (hn : n ≤ 64 * waiting.data.length)
    (hw : ∀ i, waiting.isSet i = false) :
    let r := (List.range m).foldl
      (fun (ready, waiting) i => if refCount i ≠ 0 then (ready, waiting.markSet i)
        else (ready ++ [i], waiting))
      (([] : List ℕ), waiting)
    r.1 = (List.range m).filter (fun i => refCount i = 0) ∧ r.2.data.length = waiting.data.length ∧
      ∀ i, r.2.isSet i = true ↔ i < m ∧ refCount i ≠ 0 := by
  induction m with
  | zero => simp [hw]
  | succ m ih =>
    obtain ⟨h1, h2, h3⟩ := ih (by omega)
    rw [List.range_succ, List.foldl_append, List.foldl_cons, List.foldl_nil]
    dsimp only at h1 h2 h3 ⊢
    split
    case isTrue h =>
      refine ⟨h1.trans (by simp [h]), (SmallBitSet.length_markSet _ _).trans h2, fun i => ?_⟩
      rw [SmallBitSet.isSet_markSet _ (by omega)]
      simp only [Bool.or_eq_true, decide_eq_true_eq, h3]
      constructor
      · rintro (rfl | ⟨hlt, hi⟩)
        · exact ⟨by omega, h⟩
        · exact ⟨by omega, hi⟩
      · rintro ⟨hlt, hi⟩
        by_cases him : i = m
        · exact .inl him
        · exact .inr ⟨by omega, hi⟩
    case isFalse h =>
      refine ⟨by rw [h1, List.filter_append]; simp [not_not.mp h], h2, fun i => ?_⟩
      rw [h3]
      constructor
      · rintro ⟨hlt, hi⟩
        exact ⟨by omega, hi⟩
      · rintro ⟨hlt, hi⟩
        refine ⟨?_, hi⟩
        by_contra hge
        obtain rfl : i = m := by omega
        exact h hi

/-- The invariant holds before the loop. -/
theorem Inv.init {refCount : ℕ → ℕ} (hrc : ∀ k, refCount k = (pending nodes [] k).card) :
    Inv nodes (State.init nodes refCount) := by
  have hw : ∀ i, (({} : SmallBitSet).resize nodes.length).isSet i = false := SmallBitSet.isSet_resize _
  obtain ⟨h1, h2, h3⟩ :=
    foldl_init refCount nodes.length _ nodes.length le_rfl (SmallBitSet.length_resize _) hw
  have hready : (State.init nodes refCount).readyIndices = (List.range nodes.length).filter fun i =>
    refCount i = 0 := h1
  have hsize := SmallBitSet.length_resize nodes.length
  refine ⟨?_, ?_, rfl, ?_, ?_, ?_, ?_, ?_, ?_, ?_⟩
  · rw [hready]
    exact List.nodup_range.filter _
  · rw [hready]
    intro i hi
    simpa using (List.mem_filter.mp hi).1
  · rw [← h2] at hsize
    exact hsize
  · intro i
    refine (h3 i).trans ?_
    rw [hready]
    simp [State.init]
    tauto
  · rw [hready]
    intro i hi
    change refCount i = 0
    simpa using (List.mem_filter.mp hi).2
  · rw [hready]
    intro i hlt hi
    simp [State.init] at hi ⊢
    have := hi hlt
    omega
  · exact fun i nd _ _ => hrc i
  · intro v hv
    cases hv
  · exact .refl _

end

/-! ### The steps -/

section
variable {nodes : List (NodeEntry V)} {s s' : State V}

/-- A node that reads itself reads no other one. -/
theorem reads_self (hL : Linked nodes) {i : ℕ} {nd : NodeEntry V} (hnd : nodes[i]? = some nd)
    (hself : nd.incomingVal = nd.phi) :
    reads nodes i = none := by
  cases hr : reads nodes i with
  | none => rfl
  | some k =>
    obtain ⟨nd', it, hi, hk, hinc, hne⟩ := (hL.reads_iff i k).mp hr
    obtain rfl := Option.some.inj (hnd.symm.trans hi)
    exact absurd (hL.phi_inj i k nd it hnd hk (hself.symm.trans hinc)) hne

theorem flatMap_refs_snoc (order : List ℕ) (cur : ℕ) :
    (order ++ [cur]).flatMap (refs nodes) = order.flatMap (refs nodes) ++ refs nodes cur := by
  simp

theorem Inv.ready_not_mem {cur : ℕ} {rest : List ℕ} (hs : Inv nodes s)
    (hready : s.readyIndices = cur :: rest) :
    cur ∉ s.order := by
  have := hs.nodup
  rw [hready, List.nodup_append'] at this
  exact fun h => this.2.2 h List.mem_cons_self

variable [DecidableEq V]

/-- A node that reads no other one: its phi and its value are taken, and nothing else
changes. -/
theorem handle_of_reads_none {cur : ℕ} {nd : NodeEntry V} (hnd : nodes[cur]? = some nd)
    (htmp : s.curTmpVal ≠ some nd.incomingVal ∨ nd.incomingVal = nd.phi) (hr : reads nodes cur = none) :
    ∃ taken, taken.Perm (refs nodes cur) ∧ handle nodes s cur =
      { s with
        handledCount := s.handledCount + 1
        order := s.order ++ [cur]
        consumed := s.consumed ++ taken } := by
  have hidx : nd.incomingPhiLocalIdx = none := by simpa [reads, hnd] using hr
  have hrefs : refs nodes cur = [nd.phi, nd.incomingVal] := by simp [refs, hnd]
  by_cases hself : nd.incomingVal = nd.phi
  · exact ⟨[nd.incomingVal, nd.phi], hrefs ▸ List.Perm.swap _ _ _, by simp [handle, hnd, hself]⟩
  · have := htmp.resolve_right hself
    exact ⟨[nd.phi, nd.incomingVal], hrefs ▸ .refl _, by simp [handle, hnd, hself, Ne.symm this, hidx]⟩

/-- The reader of the saved node. -/
theorem handle_of_tmp {cur : ℕ} {nd : NodeEntry V} (hnd : nodes[cur]? = some nd)
    (hself : nd.incomingVal ≠ nd.phi)
    (htmp : s.curTmpVal = some nd.incomingVal) : handle nodes s cur =
      { s with
        handledCount := s.handledCount + 1
        order := s.order ++ [cur]
        consumed := s.consumed ++ [nd.phi]
        curTmpVal := none } := by
  simp [handle, hnd, hself, htmp]

/-- A node that reads another one, which is ready if that was the last to read it. -/
theorem handle_of_reads {cur it : ℕ} {nd : NodeEntry V} (hnd : nodes[cur]? = some nd)
    (hself : nd.incomingVal ≠ nd.phi)
    (htmp : s.curTmpVal ≠ some nd.incomingVal) (hr : reads nodes cur = some it) : handle nodes s cur =
      { s with
        handledCount := s.handledCount + 1
        order := s.order ++ [cur]
        consumed := s.consumed ++ [nd.phi, nd.incomingVal]
        refCount := Function.update s.refCount it (decRef (s.refCount it))
        readyIndices := if decRef (s.refCount it) = 0 then s.readyIndices ++ [it] else s.readyIndices
        waitingNodes := if decRef (s.refCount it) = 0 then s.waitingNodes.markUnset it
          else s.waitingNodes } := by
  obtain ⟨idx, hidx, rfl⟩ : ∃ idx, nd.incomingPhiLocalIdx = some idx ∧ lowerBound nodes idx = it := by
    simpa [reads, hnd] using hr
  by_cases h0 : decRef (s.refCount (lowerBound nodes idx)) = 0
  · simp [handle, hnd, hself, Ne.symm htmp, hidx, h0]
  · simp [handle, hnd, hself, Ne.symm htmp, hidx, h0]

/-- A node that reads no other one is handled. -/
theorem Inv.handle_none {cur : ℕ} {rest : List ℕ} {nd : NodeEntry V} (hL : Linked nodes) (hs : Inv nodes s)
    (hready : s.readyIndices = cur :: rest) (hnd : nodes[cur]? = some nd) (hr : reads nodes cur = none)
    (htmp : s.curTmpVal ≠ some nd.incomingVal ∨ nd.incomingVal = nd.phi) :
    Inv nodes (handle nodes { s with readyIndices := rest } cur) := by
  have hmem : s.order ++ s.readyIndices = s.order ++ [cur] ++ rest := by
    rw [hready, List.append_assoc, List.singleton_append]
  have hpend (k : ℕ) : pending nodes (s.order ++ [cur]) k = pending nodes s.order k := by
    rw [pending_snoc, Finset.erase_eq_of_notMem]
    rw [mem_pending hL, hr]
    simp
  obtain ⟨taken, htaken, heq⟩ := handle_of_reads_none (s := { s with readyIndices := rest }) hnd htmp hr
  rw [heq]
  refine ⟨hmem ▸ hs.nodup, hmem ▸ hs.lt, ?_, hs.size, hmem ▸ hs.waiting, hmem ▸ hs.zero, hmem ▸ hs.pos,
    ?_, ?_, ?_⟩
  · simpa using hs.handled
  · intro i nd' hi hne
    rw [hpend]
    exact hs.counts i nd' hi hne
  · intro v hv
    obtain ⟨c, nd', j, hc, hphi, hcmem, hj⟩ := hs.tmp v hv
    exact ⟨c, nd', j, hc, hphi, hmem ▸ hcmem, by rw [hpend]; exact hj⟩
  · rw [flatMap_refs_snoc]
    have := hs.consumed.append htaken
    rw [List.append_assoc] at this ⊢
    exact this.trans (List.perm_append_comm.append_left _)

/-- The reader of the saved node is handled, and nothing is saved. -/
theorem Inv.handle_tmp {cur : ℕ} {rest : List ℕ} {nd : NodeEntry V} (hL : Linked nodes) (hs : Inv nodes s)
    (hready : s.readyIndices = cur :: rest) (hnd : nodes[cur]? = some nd) (hself : nd.incomingVal ≠ nd.phi)
    (htmp : s.curTmpVal = some nd.incomingVal) :
      Inv nodes (handle nodes { s with readyIndices := rest } cur) := by
  have hmem : s.order ++ s.readyIndices = s.order ++ [cur] ++ rest := by
    rw [hready, List.append_assoc, List.singleton_append]
  have hcur := hs.ready_not_mem hready
  obtain ⟨c, it, j, hc, hphi, hcmem, hj⟩ := hs.tmp _ htmp
  have hne : cur ≠ c := by
    rintro rfl
    rw [Option.some.inj (hnd.symm.trans hc)] at hself
    exact hself (Option.some.inj (hnd.symm.trans hc) ▸ hphi)
  have hr : reads nodes cur = some c := (hL.reads_iff cur c).mpr ⟨nd, it, hnd, hc, hphi, hne⟩
  have hjcur : j = cur := by
    have := (mem_pending hL).mpr ⟨hcur, hr⟩
    rw [hj, Finset.mem_singleton] at this
    exact this.symm
  subst hjcur
  rw [handle_of_tmp (s := { s with readyIndices := rest }) hnd hself htmp]
  refine ⟨hmem ▸ hs.nodup, hmem ▸ hs.lt, ?_, hs.size, hmem ▸ hs.waiting, hmem ▸ hs.zero, hmem ▸ hs.pos,
    ?_, ?_, ?_⟩
  · simpa using hs.handled
  · intro i nd' hi _
    rw [pending_snoc]
    by_cases hic : i = c
    · subst hic
      rw [hj, Finset.erase_singleton, Finset.card_empty]
      exact hs.zero i hcmem
    · rw [Finset.erase_eq_of_notMem]
      · refine hs.counts i nd' hi fun h => hic (hL.phi_inj i c nd' it hi hc ?_)
        rw [htmp] at h
        rw [← Option.some.inj h, hphi]
      · rw [mem_pending hL, hr]
        rintro ⟨-, h⟩
        exact hic (Option.some.inj h).symm
  · intro v hv
    cases hv
  · rw [flatMap_refs_snoc]
    have hrefs : refs nodes j = [nd.phi, nd.incomingVal] := by simp [refs, hnd]
    have := hs.consumed.append_right [nd.phi]
    rw [htmp] at this
    rw [hrefs]
    refine this.trans ?_
    simp only [Option.toList_some, Option.toList_none, List.append_nil, List.append_assoc]
    exact (List.Perm.swap _ _ _).append_left _

/-- A node that reads another one is handled. -/
theorem Inv.handle_some {cur it : ℕ} {rest : List ℕ} {nd : NodeEntry V} (hL : Linked nodes) (hs : Inv nodes s)
    (hready : s.readyIndices = cur :: rest) (hnd : nodes[cur]? = some nd) (hself : nd.incomingVal ≠ nd.phi)
    (htmp : s.curTmpVal ≠ some nd.incomingVal) (hr : reads nodes cur = some it) :
    Inv nodes (handle nodes { s with readyIndices := rest } cur) := by
  have hmem : s.order ++ s.readyIndices = s.order ++ [cur] ++ rest := by
    rw [hready, List.append_assoc, List.singleton_append]
  have hcur := hs.ready_not_mem hready
  obtain ⟨nd', itd, hnd', hit, hinc, hne⟩ := (hL.reads_iff cur it).mp hr
  obtain rfl := Option.some.inj (hnd.symm.trans hnd')
  have hpend (k : ℕ) (hk : k ≠ it) : pending nodes (s.order ++ [cur]) k = pending nodes s.order k := by
    rw [pending_snoc, Finset.erase_eq_of_notMem]
    rw [mem_pending hL, hr]
    rintro ⟨-, h⟩
    exact hk (Option.some.inj h).symm
  have hcard := hs.counts it itd hit (hinc ▸ htmp)
  have hcurmem : cur ∈ pending nodes s.order it := (mem_pending hL).mpr ⟨hcur, hr⟩
  have hpos : 0 < s.refCount it := hcard ▸ Finset.card_pos.mpr ⟨cur, hcurmem⟩
  have hdec : decRef (s.refCount it) = (pending nodes (s.order ++ [cur]) it).card := by
    rw [pending_snoc, Finset.card_erase_of_mem hcurmem, ← hcard, decRef, if_neg (by omega)]
  have hwait : it ∉ s.order ++ s.readyIndices := fun h => by
    have := hs.zero it h
    omega
  have hitlt : it < nodes.length := (List.getElem?_eq_some_iff.mp hit).1
  have hcounts : ∀ i nd', nodes[i]? = some nd' → s.curTmpVal ≠ some nd'.phi →
      Function.update s.refCount it (decRef (s.refCount it)) i =
        (pending nodes (s.order ++ [cur]) i).card := by
    intro i nd' hi hne'
    by_cases hi' : i = it
    · rw [hi', Function.update_self, hdec]
    · rw [Function.update_of_ne hi', hpend i hi']
      exact hs.counts i nd' hi hne'
  have hconsumed : (s.consumed ++ [nd.phi, nd.incomingVal]).Perm
      ((s.order ++ [cur]).flatMap (refs nodes) ++ s.curTmpVal.toList) := by
    have hrefs : refs nodes cur = [nd.phi, nd.incomingVal] := by simp [refs, hnd]
    rw [flatMap_refs_snoc, hrefs]
    have := hs.consumed.append_right [nd.phi, nd.incomingVal]
    rw [List.append_assoc] at this ⊢
    exact this.trans (List.perm_append_comm.append_left _)
  have htmps : ∀ v, s.curTmpVal = some v → ∃ c nd' j, nodes[c]? = some nd' ∧ v = nd'.phi ∧
    c ∈ s.order ++ s.readyIndices ∧
      pending nodes (s.order ++ [cur]) c = {j} := by
    intro v hv
    obtain ⟨c, nd', j, hc, hphi, hcmem, hj⟩ := hs.tmp v hv
    exact ⟨c, nd', j, hc, hphi, hcmem, by rw [hpend c fun h => hwait (h ▸ hcmem)]; exact hj⟩
  rw [handle_of_reads (s := { s with readyIndices := rest }) hnd hself htmp hr]
  dsimp only
  by_cases h0 : decRef (s.refCount it) = 0
  · -- The node is ready now.
    rw [if_pos h0, if_pos h0]
    have hlist : s.order ++ [cur] ++ (rest ++ [it]) = s.order ++ s.readyIndices ++ [it] := by
      rw [hmem, List.append_assoc (s.order ++ [cur])]
    refine ⟨?_, ?_, by simpa using hs.handled, by simpa using hs.size, ?_, ?_, ?_, hcounts, ?_, hconsumed⟩
    · rw [hlist]
      exact List.Nodup.append hs.nodup (List.nodup_singleton it) (by simpa using hwait)
    · rw [hlist]
      intro i hi
      rcases List.mem_append.mp hi with hi | hi
      · exact hs.lt i hi
      · exact List.mem_singleton.mp hi ▸ hitlt
    · intro i
      rw [hlist, SmallBitSet.isSet_markUnset _ (by have := hs.size; omega), Bool.and_eq_true,
        decide_eq_true_eq, hs.waiting i,
        List.mem_append (s := s.order ++ s.readyIndices), List.mem_singleton, not_or, and_assoc]
    · rw [hlist]
      intro i hi
      dsimp only
      by_cases hi' : i = it
      · rw [hi', Function.update_self, h0]
      · rw [Function.update_of_ne hi']
        exact hs.zero i (by simpa [hi'] using hi)
    · rw [hlist]
      intro i hlt hi
      rw [List.mem_append, List.mem_singleton, not_or] at hi
      dsimp only
      rw [Function.update_of_ne hi.2]
      exact hs.pos i hlt hi.1
    · rw [hlist]
      intro v hv
      obtain ⟨c, nd', j, hc, hphi, hcmem, hj⟩ := htmps v hv
      exact ⟨c, nd', j, hc, hphi, List.mem_append_left _ hcmem, hj⟩
  · rw [if_neg h0, if_neg h0]
    refine ⟨hmem ▸ hs.nodup, hmem ▸ hs.lt, by simpa using hs.handled, hs.size, hmem ▸ hs.waiting, ?_,
      ?_, hcounts,
      hmem ▸ htmps, hconsumed⟩
    · rw [← hmem]
      intro i hi
      have hne : i ≠ it := by
        rintro rfl
        exact hwait hi
      dsimp only
      rw [Function.update_of_ne hne]
      exact hs.zero i hi
    · rw [← hmem]
      intro i hlt hi
      dsimp only
      by_cases hi' : i = it
      · rw [hi', Function.update_self]
        omega
      · rw [Function.update_of_ne hi']
        exact hs.pos i hlt hi

/-- Handling the first node that is ready keeps the invariant. -/
theorem Inv.handle {cur : ℕ} {rest : List ℕ} (hL : Linked nodes) (hs : Inv nodes s)
    (hready : s.readyIndices = cur :: rest) :
    Inv nodes (handle nodes { s with readyIndices := rest } cur) := by
  obtain ⟨nd, hnd⟩ : ∃ nd, nodes[cur]? = some nd :=
    ⟨_, List.getElem?_eq_getElem (hs.lt cur (by simp [hready]))⟩
  by_cases hself : nd.incomingVal = nd.phi
  · exact hs.handle_none hL hready hnd (reads_self hL hnd hself) (.inr hself)
  by_cases htmp : s.curTmpVal = some nd.incomingVal
  · exact hs.handle_tmp hL hready hnd hself htmp
  cases hr : reads nodes cur with
  | none => exact hs.handle_none hL hready hnd hr (.inl htmp)
  | some it => exact hs.handle_some hL hready hnd hself htmp hr

end

/-! ### The cycles -/

section
variable {nodes : List (NodeEntry V)} {s s' : State V}

/-- The nodes that wait. -/
def waitingSet (nodes : List (NodeEntry V)) (order : List ℕ) : Finset ℕ :=
  (Finset.range nodes.length).filter (· ∉ order)

/-- Where no node is ready, each is read by one that waits. -/
theorem Inv.noLeaf (hL : Linked nodes) (hs : Inv nodes s) (hready : s.readyIndices = []) :
    NoLeaf (reads nodes) (waitingSet nodes s.order) := by
  intro b hb
  obtain ⟨hlt, hb⟩ := Finset.mem_filter.mp hb
  rw [Finset.mem_range] at hlt
  have hmem : b ∉ s.order ++ s.readyIndices := by simpa [hready] using hb
  obtain ⟨nd, hnd⟩ : ∃ nd, nodes[b]? = some nd := ⟨_, List.getElem?_eq_getElem hlt⟩
  have hne : s.curTmpVal ≠ some nd.phi := fun h => by
    obtain ⟨c, it, -, hc, hphi, hcmem, -⟩ := hs.tmp _ h
    exact hmem (hL.phi_inj b c nd it hnd hc hphi ▸ hcmem)
  have hpos := hs.pos b hlt hmem
  rw [hs.counts b nd hnd hne] at hpos
  obtain ⟨a, ha⟩ := Finset.card_pos.mp hpos
  obtain ⟨hao, har⟩ := (mem_pending hL).mp ha
  exact ⟨a, Finset.mem_filter.mpr ⟨Finset.mem_range.mpr (reads_lt hL har).1, hao⟩, har⟩

/-- Where no node is ready, nothing is saved: the reader of a saved node would wait, and
what it reads would wait too. -/
theorem Inv.tmp_eq_none (hL : Linked nodes) (hs : Inv nodes s) (hready : s.readyIndices = []) :
    s.curTmpVal = none := by
  cases htmp : s.curTmpVal with
  | none => rfl
  | some v =>
    obtain ⟨c, nd, j, -, -, hcmem, hj⟩ := hs.tmp v htmp
    obtain ⟨hjo, hjr⟩ := (mem_pending hL).mp (hj ▸ Finset.mem_singleton_self j)
    have hjw : j ∈ waitingSet nodes s.order :=
      Finset.mem_filter.mpr ⟨Finset.mem_range.mpr (reads_lt hL hjr).1, hjo⟩
    have hcw := (hs.noLeaf hL hready).mem_of_reaches hjw (.single hjr)
    rw [hready, List.append_nil] at hcmem
    exact absurd hcmem (Finset.mem_filter.mp hcw).2

/-- Where no node is ready, each that waits is read by one node alone. -/
theorem Inv.pending_eq_singleton (hL : Linked nodes) (hs : Inv nodes s) (hready : s.readyIndices = []) {c : ℕ}
    (hc : c ∈ waitingSet nodes s.order) : ∃ j, pending nodes s.order c = {j} := by
  have hleaf := hs.noLeaf hL hready
  obtain ⟨j, hj, hjr⟩ := hleaf c hc
  refine ⟨j,
    Finset.eq_singleton_iff_unique_mem.mpr ⟨(mem_pending hL).mpr ⟨(Finset.mem_filter.mp hj).2, hjr⟩,
    fun a ha => ?_⟩⟩
  obtain ⟨hao, har⟩ := (mem_pending hL).mp ha
  have haw : a ∈ waitingSet nodes s.order :=
    Finset.mem_filter.mpr ⟨Finset.mem_range.mpr (reads_lt hL har).1, hao⟩
  exact hleaf.eq_of_next_eq haw hj (har.trans hjr.symm)

/-- **Where no node is ready, every node that waits is on a cycle and has one reader.** -/
theorem Inv.waiting_cycle (hL : Linked nodes) (hs : Inv nodes s) (hready : s.readyIndices = []) {c : ℕ}
    (hlt : c < nodes.length) (hc : c ∉ s.order) : OnCycle (reads nodes) c ∧ s.refCount c = 1 := by
  have hcw : c ∈ waitingSet nodes s.order := Finset.mem_filter.mpr ⟨Finset.mem_range.mpr hlt, hc⟩
  refine ⟨(hs.noLeaf hL hready).onCycle hcw, ?_⟩
  obtain ⟨j, hj⟩ := hs.pending_eq_singleton hL hready hcw
  rw [hs.counts c _ (List.getElem?_eq_getElem hlt) (by rw [hs.tmp_eq_none hL hready]; simp), hj,
    Finset.card_singleton]

/-- Saving a node that waits keeps the invariant. -/
theorem Inv.breakCycle (hL : Linked nodes) (hs : Inv nodes s) (hready : s.readyIndices = []) {c : ℕ}
    (hfirst : s.waitingNodes.firstSet = some c) (hlt : c < nodes.length) (hc : c ∉ s.order)
    (hstep : breakCycle nodes s = some s') : Inv nodes s' := by
  have hcw : c ∈ waitingSet nodes s.order := Finset.mem_filter.mpr ⟨Finset.mem_range.mpr hlt, hc⟩
  obtain ⟨j, hj⟩ := hs.pending_eq_singleton hL hready hcw
  have htmp := hs.tmp_eq_none hL hready
  have hnd := List.getElem?_eq_getElem hlt
  have hlist : s.order ++ (s.readyIndices ++ [c]) = s.order ++ s.readyIndices ++ [c] := by
    rw [List.append_assoc]
  have hcmem : c ∉ s.order ++ s.readyIndices := by simpa [hready] using hc
  simp only [Compiler.breakCycle, hfirst, hnd, Option.some.injEq] at hstep
  subst hstep
  refine ⟨?_, ?_, hs.handled, by simpa using hs.size, ?_, ?_, ?_, ?_, ?_, ?_⟩
  · rw [hlist]
    exact List.Nodup.append hs.nodup (List.nodup_singleton c) (by simpa using hcmem)
  · rw [hlist]
    intro i hi
    rcases List.mem_append.mp hi with hi | hi
    · exact hs.lt i hi
    · exact List.mem_singleton.mp hi ▸ hlt
  · intro i
    rw [hlist, SmallBitSet.isSet_markUnset _ (by have := hs.size; omega), Bool.and_eq_true,
      decide_eq_true_eq, hs.waiting i,
      List.mem_append (s := s.order ++ s.readyIndices), List.mem_singleton, not_or, and_assoc]
  · rw [hlist]
    intro i hi
    dsimp only
    by_cases hi' : i = c
    · rw [hi', Function.update_self]
    · rw [Function.update_of_ne hi']
      exact hs.zero i (by simpa [hi'] using hi)
  · rw [hlist]
    intro i hi' hi
    rw [List.mem_append, List.mem_singleton, not_or] at hi
    dsimp only
    rw [Function.update_of_ne hi.2]
    exact hs.pos i hi' hi.1
  · intro i nd hi hne
    dsimp only at hne ⊢
    have hic : i ≠ c := by
      rintro rfl
      exact hne (by rw [Option.some.inj (hnd.symm.trans hi)])
    rw [Function.update_of_ne hic]
    exact hs.counts i nd hi (by rw [htmp]; simp)
  · intro v hv
    refine ⟨c, nodes[c], j, hnd, (Option.some.inj hv).symm, by simp, hj⟩
  · have := hs.consumed.append_right [nodes[c].phi]
    rw [htmp, Option.toList_none, List.append_nil] at this
    exact this

/-- Where no node is ready but some wait, `first_set` finds the lowest of them if that is
below 64, and otherwise another number. -/
theorem Inv.firstSet (hs : Inv nodes s) (hready : s.readyIndices = []) {j : ℕ} (hlt : j < nodes.length)
    (hj : j ∉ s.order) :
    ∃ m, m < nodes.length ∧ m ∉ s.order ∧ s.waitingNodes.firstSet = some (m / 64 + m % 64) ∧
      ∀ i < nodes.length, i ∉ s.order → m ≤ i := by
  have hset (i : ℕ) : s.waitingNodes.isSet i = true ↔ i < nodes.length ∧ i ∉ s.order := by
    rw [hs.waiting, hready, List.append_nil]
  obtain ⟨m, -, hm, hlow⟩ := s.waitingNodes.exists_lowest ((hset j).mpr ⟨hlt, hj⟩)
  obtain ⟨hmlt, hmo⟩ := (hset m).mp hm
  refine ⟨m, hmlt, hmo, s.waitingNodes.firstSet_eq hm hlow, fun i hi hio => ?_⟩
  by_contra h
  have := hlow i (by omega)
  rw [(hset i).mpr ⟨hi, hio⟩] at this
  exact absurd this (by decide)

/-- All nodes are handled exactly when as many are. -/
theorem Inv.all_handled_iff (hs : Inv nodes s) : (∀ j < nodes.length, j ∈ s.order) ↔
    s.handledCount = nodes.length := by
  have hnodup := (List.nodup_append'.mp hs.nodup).1
  have hsub : s.order.toFinset ⊆ Finset.range nodes.length := by
    intro i hi
    exact Finset.mem_range.mpr (hs.lt i (List.mem_append_left _ (List.mem_toFinset.mp hi)))
  have hcard := List.toFinset_card_of_nodup hnodup
  rw [hs.handled, ← hcard]
  constructor
  · intro h
    rw [← Finset.card_range nodes.length]
    exact congrArg Finset.card
      (hsub.antisymm fun j hj => List.mem_toFinset.mpr (h j (Finset.mem_range.mp hj)))
  · intro h j hj
    have := Finset.eq_of_subset_of_card_le hsub (by rw [h, Finset.card_range])
    exact List.mem_toFinset.mp (this ▸ Finset.mem_range.mpr hj)

theorem Inv.exists_waiting (hs : Inv nodes s) (hne : s.handledCount ≠ nodes.length) :
    ∃ j < nodes.length, j ∉ s.order := by
  by_contra h
  push Not at h
  exact hne (hs.all_handled_iff.mp h)

/-- Every cycle has a node below 64. -/
def EarlyCycles (nodes : List (NodeEntry V)) : Prop :=
  ∀ c, OnCycle (reads nodes) c → ∃ d, Reaches (reads nodes) c d ∧ d < 64

/-- **Where every cycle has a node below 64, the bit set yields a node that waits.** -/
theorem Inv.breaks (hL : Linked nodes) (hE : EarlyCycles nodes) (hs : Inv nodes s)
    (hready : s.readyIndices = [])
    (hne : s.handledCount ≠ nodes.length) :
    ∃ c, s.waitingNodes.firstSet = some c ∧ c < nodes.length ∧ c ∉ s.order := by
  obtain ⟨j, hlt, hj⟩ := hs.exists_waiting hne
  obtain ⟨m, hmlt, hm, hfirst, hlow⟩ := hs.firstSet hready hlt hj
  obtain ⟨d, hreach, hd⟩ := hE m (hs.waiting_cycle hL hready hmlt hm).1
  have hmw : m ∈ waitingSet nodes s.order := Finset.mem_filter.mpr ⟨Finset.mem_range.mpr hmlt, hm⟩
  have hdw := Finset.mem_filter.mp ((hs.noLeaf hL hready).mem_of_reaches hmw hreach)
  have hmd := hlow d (Finset.mem_range.mp hdw.1) hdw.2
  exact ⟨m, by rw [hfirst, show m / 64 + m % 64 = m by omega], hmlt, hm⟩

/-- A node that is ready is one more than those that were handled. -/
theorem Inv.length_lt {cur : ℕ} {rest : List ℕ} (hs : Inv nodes s) (hready : s.readyIndices = cur :: rest) :
    s.order.length < nodes.length := by
  have hnodup : (cur :: s.order).Nodup :=
    List.nodup_cons.mpr ⟨hs.ready_not_mem hready, (List.nodup_append'.mp hs.nodup).1⟩
  have hsub : (cur :: s.order).toFinset ⊆ Finset.range nodes.length := by
    intro i hi
    rcases List.mem_cons.mp (List.mem_toFinset.mp hi) with rfl | hi
    · exact Finset.mem_range.mpr (hs.lt i (by simp [hready]))
    · exact Finset.mem_range.mpr (hs.lt i (List.mem_append_left _ hi))
  have := Finset.card_le_card hsub
  rwa [List.toFinset_card_of_nodup hnodup, Finset.card_range, List.length_cons] at this

/-- **At the end every node was handled once.** -/
theorem Inv.order_perm (hs : Inv nodes s) (hf : Finished nodes s) :
    s.order.Perm (List.range nodes.length) := by
  refine (List.perm_ext_iff_of_nodup (List.nodup_append'.mp hs.nodup).1 List.nodup_range).mpr fun i => ?_
  rw [List.mem_range]
  exact ⟨fun h => hs.lt i (List.mem_append_left _ h), hs.all_handled_iff.mpr hf.2 i⟩

/-- The references of all nodes. -/
theorem flatMap_refs (nodes : List (NodeEntry V)) :
    (List.range nodes.length).flatMap (refs nodes) = nodes.flatMap fun nd => [nd.phi, nd.incomingVal] := by
  induction nodes using List.reverseRecOn with
  | nil => rfl
  | append_singleton l nd ih =>
    have hrefs :
      (List.range l.length).flatMap (refs (l ++ [nd])) = (List.range l.length).flatMap (refs l) := by
      refine List.flatMap_congr fun i hi => ?_
      rw [refs, refs, List.getElem?_append_left (List.mem_range.mp hi)]
    rw [List.length_append, List.length_singleton, List.range_succ, List.flatMap_append,
      List.flatMap_append, hrefs, ih]
    simp [refs]

/-- **At the end the references of every node were taken.** -/
theorem Inv.consumed_perm (hL : Linked nodes) (hs : Inv nodes s) (hf : Finished nodes s) :
    s.consumed.Perm (nodes.flatMap fun nd => [nd.phi, nd.incomingVal]) := by
  have := hs.consumed
  rw [hs.tmp_eq_none hL hf.1, Option.toList_none, List.append_nil] at this
  rw [← flatMap_refs]
  exact this.trans ((hs.order_perm hf).flatMap_right _)

/-- What is on a cycle is read from it, and is not ready before something of the cycle is
handled or saved. -/
theorem Inv.cycle_not_mem (hL : Linked nodes) {c₀ : ℕ} (hc : OnCycle (reads nodes) c₀) (hs : Inv nodes s)
    (horder : ∀ d, Reaches (reads nodes) c₀ d → d ∉ s.order)
    (htmp : ∀ d nd, Reaches (reads nodes) c₀ d → nodes[d]? = some nd → s.curTmpVal ≠ some nd.phi) {d : ℕ}
    (hd : Reaches (reads nodes) c₀ d) : d ∉ s.order ++ s.readyIndices := by
  intro hmem
  obtain ⟨e, he, her⟩ := hc.exists_source hd
  obtain ⟨nd, hnd⟩ : ∃ nd, nodes[d]? = some nd := ⟨_, List.getElem?_eq_getElem (reads_lt hL her).2.1⟩
  have hcard := hs.counts d nd hnd (htmp d nd hd hnd)
  rw [hs.zero d hmem] at hcard
  have hpend : e ∈ pending nodes s.order d := (mem_pending hL).mpr ⟨horder e he, her⟩
  rw [Finset.card_eq_zero.mp hcard.symm] at hpend
  exact absurd hpend (Finset.notMem_empty e)

end

/-! ### The runs -/

section
variable {nodes : List (NodeEntry V)} [DecidableEq V] {s s' : State V}

/-- A step handles a node that is ready, or saves one. -/
theorem step_cases (h : step nodes s = some s') :
    (∃ cur rest, s.readyIndices = cur :: rest ∧ s' = handle nodes { s with readyIndices := rest } cur) ∨
    (s.readyIndices = [] ∧ s.handledCount ≠ nodes.length ∧ breakCycle nodes s = some s') := by
  rw [step] at h
  split at h
  case h_1 cur rest hready => exact .inl ⟨cur, rest, hready, (Option.some.inj h).symm⟩
  case h_2 hready =>
    split at h
    · cases h
    · exact .inr ⟨hready, ‹_›, h⟩

/-- What a run keeps where the bit set yields nodes that wait. -/
theorem Inv.step (hL : Linked nodes) (hs : Inv nodes s)
    (hbreak : s.readyIndices = [] → s.handledCount ≠ nodes.length →
      ∃ c, s.waitingNodes.firstSet = some c ∧ c < nodes.length ∧ c ∉ s.order)
    (hstep : step nodes s = some s') : Inv nodes s' := by
  obtain ⟨cur, rest, hready, rfl⟩ | ⟨hready, hne, hstep⟩ := step_cases hstep
  · exact hs.handle hL hready
  · obtain ⟨c, hfirst, hlt, hc⟩ := hbreak hready hne
    exact hs.breakCycle hL hready hfirst hlt hc hstep

theorem Inv.reachable (hL : Linked nodes) (hE : EarlyCycles nodes) {s₀ : State V} (hs : Inv nodes s₀)
    (h : Reachable nodes s₀ s) : Inv nodes s := by
  induction h with
  | refl => exact hs
  | tail _ hstep ih => exact ih.step hL (ih.breaks hL hE) hstep

@[simp] theorem handle_order (cur : ℕ) : (handle nodes s cur).order = s.order ++ [cur] := by
  simp only [handle]
  repeat' split
  all_goals rfl

/-- Handling a node saves nothing. -/
theorem handle_curTmpVal {cur : ℕ} {v : V} (h : (handle nodes s cur).curTmpVal = some v) :
    s.curTmpVal = some v := by
  simp only [handle] at h
  repeat' split at h
  all_goals first | exact h | cases h

/-- **The loop ends.** -/
theorem Inv.finishes (hL : Linked nodes) (hE : EarlyCycles nodes) (hs : Inv nodes s) :
    ∃ s', Reachable nodes s s' ∧ Finished nodes s' := by
  -- A step handles a node, or makes one ready where none was.
  induction hn :
    2 * (nodes.length - s.order.length) + (if s.readyIndices = [] then 1 else 0) using Nat.strong_induction_on
    generalizing s with
  | _ n ih =>
    cases hready : s.readyIndices with
    | cons cur rest =>
      have hstep : Compiler.step nodes s = some (Compiler.handle nodes { s with
        readyIndices := rest } cur) := by
        simp [Compiler.step, hready]
      have hlt := hs.length_lt hready
      obtain ⟨s', hreach, hfin⟩ := ih _ (by
        rw [← hn, hready, handle_order, List.length_append, List.length_singleton,
          if_neg (List.cons_ne_nil _ _)]
        dsimp only
        split <;> omega) (hs.handle hL hready) rfl
      exact ⟨s', .head hstep hreach, hfin⟩
    | nil =>
      by_cases hne : s.handledCount = nodes.length
      · exact ⟨s, .refl, hready, hne⟩
      obtain ⟨c, hfirst, hlt, hc⟩ := hs.breaks hL hE hready hne
      obtain ⟨s₁, hbreak⟩ : ∃ s₁, Compiler.breakCycle nodes s = some s₁ := by
        simp [Compiler.breakCycle, hfirst, List.getElem?_eq_getElem hlt]
      have hstep : Compiler.step nodes s = some s₁ := by simp [Compiler.step, hready, hne, hbreak]
      obtain ⟨s', hreach, hfin⟩ := ih _ (by
        have hbreak := hbreak
        simp only [Compiler.breakCycle, hfirst, List.getElem?_eq_getElem hlt, Option.some.injEq] at hbreak
        rw [← hn, ← hbreak, hready]
        simp) (hs.breakCycle hL hready hfirst hlt hc hbreak) rfl
      exact ⟨s', .head hstep hreach, hfin⟩

/-- **A cycle without a node below 64 is never broken.** -/
theorem Inv.late_cycle (hL : Linked nodes) {s₀ : State V} {c₀ : ℕ} (hc : OnCycle (reads nodes) c₀)
    (hlate : ∀ d, Reaches (reads nodes) c₀ d → 64 ≤ d) (hs : Inv nodes s₀) (h₀ : s₀.order = [])
    (ht : s₀.curTmpVal = none)
    (hbreak : ∀ s, Reachable nodes s₀ s → s.readyIndices = [] → s.handledCount ≠ nodes.length →
      ∃ c, s.waitingNodes.firstSet = some c ∧ c < nodes.length ∧ c ∉ s.order)
    (h : Reachable nodes s₀ s) : Inv nodes s ∧ ∀ d, Reaches (reads nodes) c₀ d →
      d ∉ s.order ++ s.readyIndices := by
  induction h with
  | refl => exact ⟨hs, fun d => hs.cycle_not_mem hL hc (by simp [h₀]) (by simp [ht])⟩
  | @tail s s' hr hstep ih =>
    obtain ⟨hs, hnot⟩ := ih
    have hs' := hs.step hL (hbreak s hr) hstep
    refine ⟨hs', ?_⟩
    obtain ⟨cur, rest, hready, rfl⟩ | ⟨hready, hne, hstep⟩ := step_cases hstep
    · -- The node that is handled was ready, and what is saved was saved.
      refine fun d => hs'.cycle_not_mem hL hc (fun e he => ?_) fun e nd he hnd htmp => ?_
      · rw [handle_order, List.mem_append, List.mem_singleton]
        rintro (h | rfl)
        · exact hnot e he (List.mem_append_left _ h)
        · exact hnot e he (by simp [hready])
      · obtain ⟨c, it, -, hcn, hphi, hcmem, -⟩ :=
          hs.tmp _ (handle_curTmpVal (s := { s with readyIndices := rest }) htmp)
        exact hnot e he (hL.phi_inj e c nd it hnd hcn hphi ▸ hcmem)
    · -- A number below 64 is saved.
      obtain ⟨c, hfirst, hlt, hco⟩ := hbreak s hr hready hne
      obtain ⟨m, -, -, hfirst', hlow⟩ := hs.firstSet hready hlt hco
      have hcm : c = m / 64 + m % 64 := Option.some.inj (hfirst.symm.trans hfirst')
      have hmc := hlow c hlt hco
      simp only [Compiler.breakCycle, hfirst, List.getElem?_eq_getElem hlt, Option.some.injEq] at hstep
      rw [← hstep]
      intro d hd hmem
      rw [← List.append_assoc, List.mem_append, List.mem_singleton] at hmem
      rcases hmem with hmem | rfl
      · exact hnot d hd hmem
      · have := hlate d hd
        omega

end

/-! ### The procedure -/

namespace Phis

variable [DecidableEq V] (A : Phis V)

/-- The references that `move_to_phi` takes. -/
def moveToPhi (nd : NodeEntry V) : List V := [nd.phi, nd.incomingVal]

/-- The states of the loop on the phis of a block. -/
def Run (s : State V) : Prop := Reachable A.nodes (.init A.nodes A.refCounts) s

/-- The references that `move_to_phi_nodes_impl` takes: there is one phi, or no phi reads
another, or the loop orders them. -/
inductive Takes : List V → Prop
  | single (h : A.nodes.length = 1) : Takes (A.nodes.flatMap moveToPhi)
  | allZeroRef (h : A.nodes.length ≠ 1) (hz : ∀ i < A.nodes.length, A.refCounts i = 0) :
    Takes (A.nodes.flatMap moveToPhi)
  | loop {s : State V} (h : A.nodes.length ≠ 1) (hz : ¬ ∀ i < A.nodes.length,
    A.refCounts i = 0) (hr : A.Run s)
      (hf : Finished A.nodes s) : Takes s.consumed

/-- The loop ends, and handles every node once; where no node is ready the bit set yields a
node that is not handled, on a cycle, with one reader; and the references of every phi and of
its value are taken. -/
structure Accounts : Prop where
  finishes : ∃ s, A.Run s ∧ Finished A.nodes s
  once : ∀ s, A.Run s → Finished A.nodes s →
    s.order.Perm (List.range A.nodes.length) ∧ s.handledCount = A.nodes.length
  breaks : ∀ s, A.Run s → s.readyIndices = [] → s.handledCount ≠ A.nodes.length →
    ∃ c, s.waitingNodes.firstSet = some c ∧ c < A.nodes.length ∧ c ∉ s.order ∧
      OnCycle (reads A.nodes) c ∧ s.refCount c = 1
  takes : ∀ taken, A.Takes taken →
    taken.Perm (A.blockPhis.flatMap fun phi => [phi, A.incomingValForBlock phi])

theorem nodes_flatMap :
    (A.nodes.flatMap moveToPhi).Perm (A.blockPhis.flatMap fun phi => [phi, A.incomingValForBlock phi]) := by
  rw [nodes, List.flatMap_map]
  refine (A.sorted_perm.flatMap_right _).trans ?_
  rw [List.flatMap_map]
  exact .refl _

theorem accounts_of_earlyCycles (h : EarlyCycles A.nodes) : A.Accounts := by
  have hinit : Inv A.nodes (.init A.nodes A.refCounts) := .init A.refCounts_eq
  have hinv {s : State V} (hs : A.Run s) : Inv A.nodes s := hinit.reachable A.linked h hs
  refine ⟨hinit.finishes A.linked h, fun s hs hf => ⟨(hinv hs).order_perm hf, hf.2⟩,
    fun s hs hready hne => ?_, ?_⟩
  · obtain ⟨c, hfirst, hlt, hc⟩ := (hinv hs).breaks A.linked h hready hne
    obtain ⟨hcyc, hone⟩ := (hinv hs).waiting_cycle A.linked hready hlt hc
    exact ⟨c, hfirst, hlt, hc, hcyc, hone⟩
  · intro taken ht
    cases ht with
    | single => exact A.nodes_flatMap
    | allZeroRef => exact A.nodes_flatMap
    | loop _ _ hr hf => exact ((hinv hr).consumed_perm A.linked hf).trans A.nodes_flatMap

/-- **Where a cycle has no node below 64, not every node is handled.** -/
theorem not_accounts {c : ℕ} (hc : OnCycle (reads A.nodes) c)
    (hlate : ∀ d, Reaches (reads A.nodes) c d → 64 ≤ d) :
    ¬ A.Accounts := by
  intro hA
  have hinit : Inv A.nodes (.init A.nodes A.refCounts) := .init A.refCounts_eq
  obtain ⟨s, hr, hf⟩ := hA.finishes
  obtain ⟨-, hnot⟩ := hinit.late_cycle A.linked hc hlate rfl rfl (fun s hs hready hne => by
    obtain ⟨c, hfirst, hlt, hc, -⟩ := hA.breaks s hs hready hne
    exact ⟨c, hfirst, hlt, hc⟩) hr
  obtain ⟨e, -, he⟩ := hc.exists_source hc
  have hmem : c ∈ s.order := (hA.once s hr hf).1.mem_iff.mpr (List.mem_range.mpr (reads_lt A.linked he).2.1)
  exact hnot c hc (List.mem_append_left _ hmem)

/-- **The loop accounts for every node exactly where every cycle of the phis has a node
below 64.** -/
theorem accounts_iff : A.Accounts ↔ EarlyCycles A.nodes := by
  refine ⟨fun hA c hc => ?_, A.accounts_of_earlyCycles⟩
  by_contra h
  push Not at h
  exact A.not_accounts hc h hA

/-- 66 phis, of which the last two read each other and the others a constant. -/
def lateSwap : Phis ℕ where
  blockPhis := List.range 66
  incomingValForBlock p := if p = 64 then 65 else if p = 65 then 64 else 66
  valIsPhi v := v < 66
  valLocalIdx v := v
  nodup := List.nodup_range
  isPhi_of_mem p hp := by simpa using hp
  localIdx_inj _ _ _ _ h := h

/-- The two phis are on a cycle that the bit set does not find. -/
theorem lateSwap_not_accounts : ¬ lateSwap.Accounts := by
  have h64 : reads lateSwap.nodes 64 = some 65 := by decide +kernel
  have h65 : reads lateSwap.nodes 65 = some 64 := by decide +kernel
  refine lateSwap.not_accounts (c := 64) (.tail (.single h64) h65) fun d hd => ?_
  have : d = 64 ∨ d = 65 := by
    induction hd with
    | single h => exact .inr (Option.some.inj (h.symm.trans h64))
    | tail _ h ih =>
      rcases ih with rfl | rfl
      · exact .inr (Option.some.inj (h.symm.trans h64))
      · exact .inl (Option.some.inj (h.symm.trans h65))
  omega

end Phis

end Tpde.Compiler
