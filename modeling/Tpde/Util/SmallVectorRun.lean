import Tpde.Library.Runs
import Tpde.Util.SmallVectorInv

/-!
# Runs of small vectors

Vectors are constructed, moved, changed and destroyed, in any order. A move assignment forgets the
buffer of its target when it takes that of the other vector, the bytes of a growth are counted modulo
2^64, and `erase` of an empty range moves the elements behind it onto themselves. Apart from that, each
vector is the list that the same calls make, and each buffer is held by one vector until it is freed
once (`vectors_correct_iff`).
-/

namespace Tpde.Util.Vectors

open Ranges Runs Storage SmallVector

/-! ### Operations -/

/-- The calls of a vector; what is added is not in the vector, and as much as a distance can be. -/
inductive Call (α : Type*) where
  | pushBack (elem : α)
  | emplaceBack (elem : α)
  | popBack
  | resize (newSize : BitVec 64) (init : α)
  | reserve (newCap : BitVec 64)
  | append (elems : { l : List α // l.length < 2 ^ 63 })
  | erase (start stop : ℕ)
  | clear

/-- What is done with vectors, which are named by their addresses, with the answer of the system if it
is asked. -/
inductive Op (α : Type*) where
  | construct (this N : ℕ)
  | moveConstruct (this N other answer : ℕ)
  | moveAssign (this other answer : ℕ)
  | destroy (this : ℕ)
  | call (this : ℕ) (c : Call α) (answer : ℕ)

section
variable {α : Type*} (T : ElemType α) (w : Vectors α)

def Call.exec (this answer : ℕ) : Call α → Option (Vectors α)
  | pushBack elem => w.pushBack T this elem answer
  | emplaceBack elem => w.emplaceBack T this elem answer
  | popBack => w.popBack this
  | resize newSize init => w.resize T this newSize.toNat init answer
  | reserve newCap => w.reserve T this newCap.toNat answer
  | append elems => w.append T this elems.val answer
  | erase start stop => w.erase T this start stop
  | clear => some (w.clear this)

/-- What a call makes of a list. -/
def Call.list (l : List α) : Call α → List α
  | pushBack elem => l ++ [elem]
  | emplaceBack elem => l ++ [elem]
  | popBack => l.dropLast
  | resize newSize init => l.take newSize.toNat ++ List.replicate (newSize.toNat - l.length) init
  | reserve _ => l
  | append elems => l ++ elems.val
  | erase start stop => l.take start ++ l.drop stop
  | clear => []

/-- How many elements a call needs room for. -/
def Call.need (v : SmallVector) : Call α → ℕ
  | pushBack _ => v.sz + 1
  | emplaceBack _ => v.sz + 1
  | resize newSize _ => if v.sz < newSize.toNat then newSize.toNat else 0
  | reserve newCap => newCap.toNat
  | append elems => v.sz + elems.val.length
  | _ => 0

def Op.exec : Op α → Option (Vectors α)
  | construct this N => some (w.construct T this N)
  | moveConstruct this N other answer => if other ∈ w.objs then w.moveConstruct T this N other answer
    else none
  | moveAssign this other answer => if this ∈ w.objs ∧ other ∈ w.objs then
    w.moveAssign T this other answer else none
  | destroy this => if this ∈ w.objs then some (w.destroy this) else none
  | call this c answer => if this ∈ w.objs then c.exec T w this answer else none

/-- What it makes of the lists; a vector that is moved from is empty. -/
def Op.lists (lists : ℕ → List α) : Op α → ℕ → List α
  | construct this _ => Function.update lists this []
  | moveConstruct this _ other _ => Function.update (Function.update lists this (lists other)) other []
  | moveAssign this other _ => Function.update (Function.update lists this (lists other)) other []
  | destroy _ => lists
  | call this c _ => Function.update lists this (c.list (lists this))

/-- The vector that may grow, how many elements it needs room for, and what the system answers if it does. -/
def Op.growth : Op α → SmallVector × ℕ × ℕ
  | construct this N => (fresh T this N, 0, 0)
  | moveConstruct this N other answer =>
    (fresh T this N, if (w.vec other).isSmall then (w.vec other).sz else 0, answer)
  | moveAssign this other answer =>
    (w.vec this, if this ≠ other ∧ (w.vec other).isSmall then (w.vec other).sz else 0, answer)
  | destroy this => (w.vec this, 0, 0)
  | call this c answer => (w.vec this, c.need (w.vec this), answer)

/-- The addresses of the object that is constructed. -/
def Op.placed : Op α → Option (ℕ × ℕ)
  | construct this N => some ((fresh T this N).range T)
  | moveConstruct this N _ _ => some ((fresh T this N).range T)
  | _ => none

end

/-! ### Runs -/

/-- The vectors, and the lists that they should be. -/
structure World (α : Type*) where
  vectors : Vectors α := {}
  lists : ℕ → List α := fun _ => []

section
variable {α : Type*} (T : ElemType α)

def step (w : World α) (op : Op α) : Option (World α) := (op.exec T w.vectors).map fun vectors =>
    { vectors, lists := op.lists w.lists }

/-- What must hold after every operation. -/
structure World.Correct (w : World α) : Prop where
  contents : ∀ a ∈ w.vectors.objs, w.vectors.contents a = (w.lists a).map some
  size_le : ∀ a ∈ w.vectors.objs, (w.vectors.vec a).sz ≤ (w.vectors.vec a).cap
  room : ∀ a ∈ w.vectors.objs, (w.vectors.vec a).cap * T.size ≤ (w.vectors.vec a).ptr.2
  owned : w.vectors.sys.Owned w.vectors.buffers

/-- Objects are constructed where there is room, and the system keeps its promise. -/
structure Answered (t : Step (World α) (Op α)) : Prop where
  vacant : ∀ o ∈ t.op.placed T, t.before.vectors.sys.Vacant (t.before.vectors.ranges T) o
  answers : (t.op.growth T t.before.vectors).1.cap < (t.op.growth T t.before.vectors).2.1 →
    Answers T t.before.vectors.sys ((t.op.placed T).toList ++ t.before.vectors.ranges T)
      (t.op.growth T t.before.vectors).1
      (t.op.growth T t.before.vectors).2.1 (t.op.growth T t.before.vectors).2.2

/-- The condition that an operation has of its own: not both sides of a move assignment have a buffer,
and an empty range is only erased if the elements behind it stay what they are when they are moved onto
themselves. -/
def Own (w : World α) : Op α → Prop
  | .moveAssign this other _ => (w.vectors.vec this).isSmall ∨ (w.vectors.vec other).isSmall
  | .call this (.erase start stop) _ => start = stop → ∀ x ∈ (w.lists this).drop start, T.selfMove x = x
  | _ => True

/-- The condition on an operation: besides its own one, what it grows a vector to is less than 2^64 bytes. -/
def Meets (t : Step (World α) (Op α)) : Prop :=
  ((t.op.growth T t.before.vectors).1.cap < (t.op.growth T t.before.vectors).2.1 →
    newBytes T (t.op.growth T t.before.vectors).1 (t.op.growth T t.before.vectors).2.1 < 2 ^ 64) ∧
      Own T t.before t.op

/-- The invariant of a run. -/
def World.Inv (w : World α) : Prop := Vectors.Inv T w.vectors w.lists []

end

section
variable {α : Type*} {T : ElemType α} {w w' : World α} {v v' v₁ : Vectors α} {lists : ℕ →
    List α} {a other n N answer : ℕ} {c : Call α}
  {t : Step (World α) (Op α)}

theorem World.inv_init : World.Inv T {} := ⟨.empty, .nil, nofun, nofun, nofun, nofun⟩

/-- The elements of a vector are those of its list. -/
theorem Inv.contents (h : Vectors.Inv T v lists []) (ha : a ∈ v.objs) :
    v.contents a = (lists a).map some := by
  rw [Vectors.contents, h.sz a ha]
  apply List.ext_getElem?
  intro i
  rw [List.getElem?_map, List.getElem?_map]
  by_cases hi : i < (lists a).length
  · rw [List.getElem?_range hi, List.getElem?_eq_getElem hi, Option.map_some, Option.map_some,
      h.holds a ha i hi, List.getElem?_eq_getElem hi]
  · have hrange : (List.range (lists a).length)[i]? = none :=
      List.getElem?_eq_none (by rw [List.length_range]; omega)
    rw [hrange, List.getElem?_eq_none (not_lt.mp hi)]
    rfl

theorem Inv.owned (h : Vectors.Inv T v lists []) : v.sys.Owned v.buffers := by
  have howned := h.layout.blocks.owned
  rwa [List.append_nil] at howned

theorem World.Inv.correct (h : w.Inv T) : w.Correct T where
  contents _ ha := Vectors.Inv.contents h ha
  size_le a ha := (h.valid a ha).le
  room a ha := (h.valid a ha).fits
  owned := Vectors.Inv.owned h

/-- The list after a call, where an erased range is not empty or can be. -/
theorem erased_eq {l : List α} {start stop : ℕ}
    (hkept : start = stop → ∀ x ∈ l.drop start, T.selfMove x = x) :
    Cells.erased T.selfMove l start stop = l.take start ++ l.drop stop := by
  rw [Cells.erased]
  split
  case isTrue heq =>
    subst heq
    rw [List.map_congr_left (hkept rfl), List.map_id']
  case isFalse => rfl

/-- A call that meets the condition keeps the invariant. -/
theorem Inv.call (h : Vectors.Inv T v lists []) (ha : a ∈ v.objs) (hexec : c.exec T v a answer = some v')
    (hanswer : (v.vec a).cap < c.need (v.vec a) →
      Answers T v.sys (v.ranges T) (v.vec a) (c.need (v.vec a)) answer)
    (hfits : (v.vec a).cap < c.need (v.vec a) → newBytes T (v.vec a) (c.need (v.vec a)) < 2 ^ 64)
    (hkept : ∀ start stop, c = .erase start stop → start = stop → ∀ x ∈ (lists a).drop start,
      T.selfMove x = x) :
    Vectors.Inv T v' (Function.update lists a (c.list (lists a))) [] := by
  have hsz := h.sz a ha
  cases c with
  | pushBack elem =>
    rw [Call.need, hsz] at hanswer hfits
    exact h.pushBack ha hexec hanswer hfits
  | emplaceBack elem =>
    rw [Call.need, hsz] at hanswer hfits
    exact h.pushBack ha hexec hanswer hfits
  | popBack => exact h.popBack ha hexec
  | resize newSize init =>
    rw [Call.need, hsz] at hanswer hfits
    refine h.resize ha hexec (fun hmore => ?_) (fun hmore => ?_)
    · rwa [if_pos hmore] at hanswer
    · rwa [if_pos hmore] at hfits
  | reserve newCap =>
    rw [Call.list, Function.update_eq_self]
    exact (h.reserve ha hexec hanswer hfits).1
  | append elems =>
    rw [Call.need, hsz] at hanswer hfits
    exact h.append ha elems.property hexec hanswer hfits
  | erase start stop =>
    have hinv := (h.erase ha hexec).2
    rwa [erased_eq (hkept start stop rfl)] at hinv
  | clear =>
    cases hexec
    exact h.clear ha

/-- A construction from another vector that meets the condition keeps the invariant. -/
theorem Inv.moveConstruct (h : Vectors.Inv T v lists []) (ho : other ∈ v.objs)
    (hmove : v.moveConstruct T a N other answer = some v')
    (hvacant : v.sys.Vacant (v.ranges T) ((fresh T a N).range T))
    (hanswer : (v.vec other).isSmall → N < (v.vec other).sz →
      Answers T v.sys ((fresh T a N).range T :: v.ranges T) (fresh T a N) (v.vec other).sz answer)
    (hfits : (v.vec other).isSmall → N < (v.vec other).sz →
      newBytes T (fresh T a N) (v.vec other).sz < 2 ^ 64) :
    Vectors.Inv T v' (Function.update (Function.update lists a (lists other)) other []) [] := by
  obtain ⟨hfresh, hnot⟩ := h.construct hvacant
  have hne : other ≠ a := fun heq => hnot (heq ▸ ho)
  have hself : (v.construct T a N).vec a = fresh T a N := Function.update_self ..
  have hother : (v.construct T a N).vec other = v.vec other := Function.update_of_ne hne ..
  have hdone := hfresh.moveAssign List.mem_cons_self (List.mem_cons_of_mem _ ho) hmove (.inl (hself ▸ rfl))
    (by rw [hself, hother, ranges_construct hnot]; exact fun _ => hanswer)
    (by rw [hself, hother]; exact fun _ => hfits)
  rwa [Function.update_idem, Function.update_of_ne hne] at hdone

/-- **A step that meets the condition keeps the invariant.** -/
theorem World.Inv.step (h : t.before.Inv T) (hstep : Vectors.step T t.before t.op = some t.after)
    (hanswered : Answered T t)
    (hmeets : Meets T t) : t.after.Inv T := by
  obtain ⟨w, op, w'⟩ := t
  dsimp only [Vectors.step] at hstep
  obtain ⟨v', hexec, rfl⟩ := Option.map_eq_some_iff.mp hstep
  obtain ⟨hvacant, hanswer⟩ := hanswered
  obtain ⟨hfits, hown⟩ := hmeets
  dsimp only at h hvacant hanswer hfits hown hexec
  cases op with
  | construct this N =>
    cases hexec
    exact (Vectors.Inv.construct h (hvacant _ rfl)).1
  | moveConstruct this N other answer =>
    simp only [Op.exec, Option.ite_none_right_eq_some] at hexec
    obtain ⟨ho, hmove⟩ := hexec
    refine Vectors.Inv.moveConstruct h ho hmove (hvacant _ rfl) (fun hsmall => ?_) fun hsmall => ?_
    · simp only [Op.growth, if_pos hsmall] at hanswer
      exact hanswer
    · simp only [Op.growth, if_pos hsmall] at hfits
      exact hfits
  | moveAssign this other answer =>
    simp only [Op.exec, Option.ite_none_right_eq_some] at hexec
    obtain ⟨⟨ha, ho⟩, hmove⟩ := hexec
    refine Vectors.Inv.moveAssign h ha ho hmove hown (fun hne hsmall => ?_) fun hne hsmall => ?_
    · simp only [Op.growth, if_pos (And.intro hne hsmall)] at hanswer
      exact hanswer
    · simp only [Op.growth, if_pos (And.intro hne hsmall)] at hfits
      exact hfits
  | destroy this =>
    simp only [Op.exec, Option.ite_none_right_eq_some, Option.some_inj] at hexec
    obtain ⟨ha, rfl⟩ := hexec
    exact Vectors.Inv.destroy h ha
  | call this c answer =>
    simp only [Op.exec, Option.ite_none_right_eq_some] at hexec
    obtain ⟨ha, hcall⟩ := hexec
    refine Vectors.Inv.call h ha hcall hanswer hfits fun start stop hc => ?_
    subst hc
    exact hown

/-! ### What goes wrong -/

/-- A vector is alive that has less room than its capacity. -/
def Overfull (T : ElemType α) (v : Vectors α) (a : ℕ) : Prop :=
  a ∈ v.objs ∧ (v.vec a).ptr.2 < (v.vec a).cap * T.size

/-- A growth to 2^64 bytes or more. -/
theorem reserve_overfull (ha : a ∈ v.objs) (hreserve : v.reserve T a n answer = some v')
    (hlt : (v.vec a).cap < n)
    (hbytes : 2 ^ 64 ≤ newBytes T (v.vec a) n) : v'.Overfull T a := by
  rw [reserve, if_pos hlt] at hreserve
  obtain ⟨hobjs, ptr, hvec⟩ := grow_vec hreserve
  refine ⟨hobjs ▸ ha, ?_⟩
  rw [hvec, Function.update_self]
  exact (Nat.mod_lt _ (Nat.two_pow_pos 64)).trans_le hbytes

theorem Overfull.setElems {b sz : ℕ} {cells : Cells α} (h : v.Overfull T a) :
    (v.setElems b cells sz).Overfull T a := by
  refine ⟨h.1, ?_⟩
  by_cases hab : a = b
  · subst hab
    rw [vec_setElems]
    exact h.2
  · rw [vec_setElems_of_ne hab]
    exact h.2

theorem Inv.call_overfull (h : Vectors.Inv T v lists []) (ha : a ∈ v.objs)
    (hexec : c.exec T v a answer = some v')
    (hlt : (v.vec a).cap < c.need (v.vec a))
    (hbytes : 2 ^ 64 ≤ newBytes T (v.vec a) (c.need (v.vec a))) : v'.Overfull T a := by
  have hsz := h.sz a ha
  have hsmall := h.sz_lt ha
  have hpush {elem : α} (hexec : v.pushBack T a elem answer = some v')
    (hlt : (v.vec a).cap < (v.vec a).sz + 1)
      (hbytes : 2 ^ 64 ≤ newBytes T (v.vec a) ((v.vec a).sz + 1)) : v'.Overfull T a := by
    obtain ⟨v₁, hensure, rfl⟩ := Option.map_eq_some_iff.mp hexec
    rw [hsz] at hlt hbytes
    exact (reserve_overfull ha (reserve_of_ensureSpace h ha (by omega) hensure) hlt hbytes).setElems
  cases c with
  | pushBack elem => exact hpush hexec hlt hbytes
  | emplaceBack elem => exact hpush hexec hlt hbytes
  | resize newSize init =>
    rw [Call.need] at hlt hbytes
    by_cases hmore : (v.vec a).sz < newSize.toNat
    · rw [if_pos hmore] at hlt hbytes
      unfold Call.exec Vectors.resize at hexec
      dsimp only at hexec
      rw [if_neg (by omega), if_pos hmore] at hexec
      obtain ⟨v₁, hreserve, rfl⟩ := Option.map_eq_some_iff.mp hexec
      exact (reserve_overfull ha hreserve hlt hbytes).setElems
    · rw [if_neg hmore] at hlt
      exact absurd hlt (Nat.not_lt_zero _)
  | reserve newCap => exact reserve_overfull ha hexec hlt hbytes
  | append elems =>
    have hlen := elems.property
    rw [Call.need] at hlt hbytes
    unfold Call.exec Vectors.append at hexec
    dsimp only at hexec
    rw [Nat.mod_eq_of_lt (by omega)] at hexec
    obtain ⟨v₁, hreserve, rfl⟩ := Option.map_eq_some_iff.mp hexec
    exact (reserve_overfull ha hreserve hlt hbytes).setElems
  | popBack => exact absurd hlt (Nat.not_lt_zero _)
  | erase start stop => exact absurd hlt (Nat.not_lt_zero _)
  | clear => exact absurd hlt (Nat.not_lt_zero _)

theorem moveAssign_overfull (ha : a ∈ v.objs) (hne : a ≠ other) (hsmall : (v.vec other).isSmall)
    (hmove : v.moveAssign T a other answer = some v')
    (hlt : (v.vec a).cap < (v.vec other).sz) (hbytes : 2 ^ 64 ≤ newBytes T (v.vec a) (v.vec other).sz) :
      v'.Overfull T a := by
  have hother : (v.clear a).vec other = v.vec other := vec_setElems_of_ne hne.symm
  have hself : (v.clear a).vec a = { v.vec a with sz := 0 } := vec_setElems
  unfold Vectors.moveAssign at hmove
  dsimp only at hmove
  rw [hother, if_neg (not_not.mpr hsmall)] at hmove
  obtain ⟨v₁, hreserve, rfl⟩ := Option.map_eq_some_iff.mp hmove
  have hover : v₁.Overfull T a :=
    reserve_overfull (v := v.clear a) ha hreserve (by rw [hself]; exact hlt) (by rw [hself]; exact hbytes)
  exact hover.setElems.setElems

/-- A move assignment between two vectors with buffers loses the one of the target. -/
theorem Inv.moveAssign_leak (h : Vectors.Inv T v lists []) (ha : a ∈ v.objs) (ho : other ∈ v.objs)
    (hlargeA : ¬ (v.vec a).isSmall)
    (hlarge : ¬ (v.vec other).isSmall) (hmove : v.moveAssign T a other answer = some v') :
      ¬ v'.sys.Owned v'.buffers := by
  intro howned
  have hisSmall : ((v.clear a).vec other).isSmall ↔ (v.vec other).isSmall := by
    by_cases hao : other = a
    · rw [hao, Vectors.clear, vec_setElems]
      exact Iff.rfl
    · rw [Vectors.clear, vec_setElems_of_ne hao]
  have hptr : ((v.clear a).vec other).ptr = (v.vec other).ptr := by
    by_cases hao : other = a
    · rw [hao, Vectors.clear, vec_setElems]
    · rw [Vectors.clear, vec_setElems_of_ne hao]
  unfold Vectors.moveAssign at hmove
  dsimp only at hmove
  rw [if_pos (mt hisSmall.mp hlarge)] at hmove
  cases hmove
  have hbefore : (v.vec a).ptr ∈ v.buffers := List.mem_filterMap.mpr ⟨a, ha, buffer_of_not_isSmall hlargeA⟩
  have hafter := howned.mem_of_live (h.owned.live hbefore)
  obtain ⟨b, hb, hbuffer⟩ := List.mem_filterMap.mp hafter
  dsimp only [setVec] at hbuffer
  by_cases hbo : b = other
  · rw [hbo, Function.update_self, buffer_of_isSmall (show isSmall (taken T _) from rfl)] at hbuffer
    cases hbuffer
  · rw [Function.update_of_ne hbo] at hbuffer
    by_cases hba : b = a
    · subst hba
      rw [Function.update_self] at hbuffer
      have heq := ptr_of_buffer hbuffer
      dsimp only at heq
      rw [hptr] at heq
      exact h.addr_ne ha ho hbo (by rw [heq])
    · rw [Function.update_of_ne hba, Vectors.clear, vec_setElems_of_ne hba] at hbuffer
      exact h.addr_ne hb ha hba (by rw [ptr_of_buffer hbuffer])

theorem World.Inv.correct_iff (h : t.before.Inv T) (hstep : Vectors.step T t.before t.op = some t.after)
    (hanswered : Answered T t) :
    t.after.Correct T ↔ Meets T t := by
  refine ⟨fun hcorrect => ?_, fun hmeets => (h.step hstep hanswered hmeets).correct⟩
  obtain ⟨w, op, w'⟩ := t
  dsimp only [Vectors.step] at hstep
  obtain ⟨v', hexec, rfl⟩ := Option.map_eq_some_iff.mp hstep
  have hroom : ∀ b, ¬ v'.Overfull T b := fun b hover => absurd (hcorrect.room b hover.1) hover.2.not_ge
  refine ⟨fun hlt => ?_, ?_⟩
  · by_contra hbytes
    have hbytes := not_lt.mp hbytes
    cases op with
    | construct this N => exact absurd hlt (Nat.not_lt_zero _)
    | destroy this => exact absurd hlt (Nat.not_lt_zero _)
    | moveConstruct this N other answer =>
      simp only [Op.exec, Option.ite_none_right_eq_some] at hexec
      obtain ⟨ho, hmove⟩ := hexec
      obtain ⟨-, hnot⟩ := Vectors.Inv.construct h (hanswered.vacant _ rfl)
      have hne : other ≠ this := fun heq => hnot (heq ▸ ho)
      have hself : (w.vectors.construct T this N).vec this = fresh T this N := Function.update_self ..
      have hother : (w.vectors.construct T this N).vec other = w.vectors.vec other :=
        Function.update_of_ne hne ..
      simp only [Op.growth] at hlt hbytes
      split at hlt
      case isTrue hsmall =>
        rw [if_pos hsmall] at hbytes
        refine hroom this (moveAssign_overfull List.mem_cons_self hne.symm (by rwa [hother]) hmove ?_ ?_)
        · rw [hself, hother]
          exact hlt
        · rw [hself, hother]
          exact hbytes
      case isFalse => exact absurd hlt (Nat.not_lt_zero _)
    | moveAssign this other answer =>
      simp only [Op.exec, Option.ite_none_right_eq_some] at hexec
      obtain ⟨⟨ha, ho⟩, hmove⟩ := hexec
      simp only [Op.growth] at hlt hbytes
      split at hlt
      case isTrue hsmall =>
        rw [if_pos hsmall] at hbytes
        exact hroom this (moveAssign_overfull ha hsmall.1 hsmall.2 hmove hlt hbytes)
      case isFalse => exact absurd hlt (Nat.not_lt_zero _)
    | call this c answer =>
      simp only [Op.exec, Option.ite_none_right_eq_some] at hexec
      exact hroom this (Vectors.Inv.call_overfull h hexec.1 hexec.2 hlt hbytes)
  · cases op with
    | construct this N => trivial
    | destroy this => trivial
    | moveConstruct this N other answer => trivial
    | moveAssign this other answer =>
      simp only [Op.exec, Option.ite_none_right_eq_some] at hexec
      obtain ⟨⟨ha, ho⟩, hmove⟩ := hexec
      by_contra hown
      rw [Own, not_or] at hown
      exact Vectors.Inv.moveAssign_leak h ha ho hown.1 hown.2 hmove hcorrect.owned
    | call this c answer =>
      simp only [Op.exec, Option.ite_none_right_eq_some] at hexec
      cases c with
      | erase start stop =>
        intro heq
        subst heq
        obtain ⟨hobjs, hinv⟩ := Vectors.Inv.erase h hexec.1 hexec.2
        have ha : this ∈ v'.objs := hobjs ▸ hexec.1
        have hcontents := (hcorrect.contents this ha).symm.trans (hinv.contents ha)
        simp only [Op.lists, Call.list, Function.update_self, Cells.erased, if_true] at hcontents
        have hlists :=
          List.append_cancel_left
            ((List.map_inj_right fun _ _ hsome => Option.some_inj.mp hsome).mp hcontents)
        have hmap : ((w.lists this).drop start).map T.selfMove = ((w.lists this).drop start).map id :=
          hlists.symm.trans (List.map_id _).symm
        exact List.map_inj_left.mp hmap
      | _ => trivial

/-- **Small vectors are lists that own their buffers** in every state of a run exactly if every
operation meets the condition. -/
theorem vectors_correct_iff {ops : List (Op α)} (hanswers : ∀ t ∈ steps (step T) {} ops, Answered T t) :
    (World.Correct T {} ∧ ∀ t ∈ steps (step T) {} ops, t.after.Correct T) ↔ ∀ t ∈ steps (step T) {} ops,
      Meets T t := by
  rw [and_iff_right World.inv_init.correct]
  exact forall_steps_iff World.inv_init (fun t ht h hmeets => h.step (step_of_mem ht) (hanswers t ht) hmeets)
    fun t ht h => h.correct_iff (step_of_mem ht) (hanswers t ht)

end

/-- `u32`. -/
def u32 : ElemType (BitVec 32) := { size := 4, pos := by omega, isTrivial := true, selfMove := id }

/-- A vector without inline storage, its first element, and another vector that takes its buffer. -/
def movedElement : List (Op (BitVec 32)) :=
  [.construct 4096 0, .call 4096 (.pushBack 7) 65536, .moveConstruct 8192 0 4096 0]

theorem vectors_correct_iff_movedElement :
    (World.Correct u32 {} ∧ ∀ t ∈ steps (step u32) {} movedElement, t.after.Correct u32) ↔
    ∀ t ∈ steps (step u32) {} movedElement, Meets u32 t := by
  refine vectors_correct_iff
    (List.forall_mem_cons.mpr ⟨⟨?_, nofun⟩, List.forall_mem_cons.mpr ⟨⟨nofun, fun _ => ?_⟩,
    List.forall_mem_cons.mpr ⟨⟨?_, nofun⟩, List.forall_mem_nil _⟩⟩⟩)
  · rintro o ⟨⟩
    exact ⟨by decide, nofun, fun b hb => nomatch hb.1⟩
  · exact ⟨⟨by decide, by decide, by decide, fun b hb => nomatch hb.1⟩,
      List.forall_mem_singleton.mpr (.inl (by decide))⟩
  · rintro o ⟨⟩
    refine ⟨by decide, List.forall_mem_singleton.mpr (.inr (by decide)), fun b hb => ?_⟩
    rw [List.mem_singleton.mp hb.1]
    exact .inl (by decide)

/-- Two vectors with buffers, and a move from one to the other. -/
def moveOver : List (Op (BitVec 32)) :=
  [.construct 4096 0, .call 4096 (.pushBack 7) 65536, .construct 8192 0,
    .call 8192 (.pushBack 8) 131072, .moveAssign 4096 8192 0]

theorem moveOver_answered : ∀ t ∈ steps (step u32) {} moveOver, Answered u32 t := by
  refine List.forall_mem_cons.mpr ⟨⟨?_, nofun⟩,
    List.forall_mem_cons.mpr ⟨⟨nofun, fun _ => ?_⟩, List.forall_mem_cons.mpr ⟨⟨?_, nofun⟩,
    List.forall_mem_cons.mpr ⟨⟨nofun, fun _ => ?_⟩,
      List.forall_mem_cons.mpr ⟨⟨nofun, nofun⟩, List.forall_mem_nil _⟩⟩⟩⟩⟩
  · rintro o ⟨⟩
    exact ⟨by decide, nofun, fun b hb => nomatch hb.1⟩
  · exact ⟨⟨by decide, by decide, by decide, fun b hb => nomatch hb.1⟩,
      List.forall_mem_singleton.mpr (.inl (by decide))⟩
  · rintro o ⟨⟩
    refine ⟨by decide, List.forall_mem_singleton.mpr (.inr (by decide)), fun b hb => ?_⟩
    rw [List.mem_singleton.mp hb.1]
    exact .inl (by decide)
  · refine ⟨⟨by decide, by decide, by decide, fun b hb => ?_⟩,
      List.forall_mem_cons.mpr ⟨.inl (by decide), List.forall_mem_singleton.mpr (.inl (by decide))⟩⟩
    rw [List.mem_singleton.mp hb.1]
    exact .inr (by decide)

/-- The buffer of the first vector is lost. -/
theorem moveOver_leak : (∀ t ∈ steps (step u32) {} moveOver, Answered u32 t) ∧
    ¬ ∀ t ∈ steps (step u32) {} moveOver, t.after.Correct u32 := by
  refine ⟨moveOver_answered, fun h => ?_⟩
  obtain ⟨-, h⟩ := List.forall_mem_cons.mp h
  obtain ⟨-, h⟩ := List.forall_mem_cons.mp h
  obtain ⟨-, h⟩ := List.forall_mem_cons.mp h
  obtain ⟨-, h⟩ := List.forall_mem_cons.mp h
  have hlost := (List.forall_mem_cons.mp h).1
  exact absurd hlost.owned.2.length_eq (by decide)

end Tpde.Util.Vectors
