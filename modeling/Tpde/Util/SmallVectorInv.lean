import Tpde.Util.SmallVector

/-!
# What small vectors keep

The elements of each vector are those of a list, they have room in what its pointer points to, and the
buffers are held by one vector each (`Vectors.Inv`). Each operation keeps that if it grows to less than
2^64 bytes, and a move assignment takes a buffer only to a vector that has none.
-/

namespace Tpde.Util

open Ranges Storage SmallVector

namespace SmallVector

variable {α : Type*} {T : ElemType α} {v : SmallVector}

/-- The elements have room. -/
structure Valid (T : ElemType α) (v : SmallVector) : Prop where
  small : v.isSmall → v.ptr = v.smallPtr T
  le : v.sz ≤ v.cap
  fits : v.cap * T.size ≤ v.ptr.2

theorem storageSize_pos : 0 < v.storageSize T := by
  rw [storageSize]
  split
  · exact Nat.one_pos
  · exact Nat.mul_pos (Nat.pos_of_ne_zero ‹_›) T.pos

theorem le_storageSize : v.N * T.size ≤ v.storageSize T := by
  rw [storageSize]
  split
  case isTrue hzero => rw [hzero, Nat.zero_mul]; exact Nat.zero_le _
  case isFalse => exact le_rfl

theorem buffer_of_isSmall (h : v.isSmall) : v.buffer = none := if_pos h

theorem buffer_of_not_isSmall (h : ¬ v.isSmall) : v.buffer = some v.ptr := if_neg h

theorem ptr_of_buffer {p : Block} (h : v.buffer = some p) : v.ptr = p := by
  unfold buffer at h
  split at h
  · cases h
  · exact Option.some_inj.mp h

end SmallVector

namespace Vectors

variable {α : Type*} {T : ElemType α}

/-- The invariant, with the buffers that no vector holds. -/
structure Inv (T : ElemType α) (w : Vectors α) (lists : ℕ → List α) (loose : List Block) : Prop where
  layout : Objects w.sys (w.ranges T) (w.buffers ++ loose)
  nodup : w.objs.Nodup
  this : ∀ a ∈ w.objs, (w.vec a).this = a
  valid : ∀ a ∈ w.objs, (w.vec a).Valid T
  sz : ∀ a ∈ w.objs, (w.vec a).sz = (lists a).length
  holds : ∀ a ∈ w.objs, (w.cells a).Holds (lists a)

section
variable {w w' : Vectors α} {lists : ℕ → List α} {loose loose' : List Block}
    {a b this other newSize answer : ℕ} {v : SmallVector} {sys : Sys}
  {mem : ℕ → Cells α} {l : List α} {c : Cells α} {sz : ℕ}

theorem filterMap_cons_toList {β γ : Type*} (f : β → Option γ) (x : β) (xs : List β) :
    (x :: xs).filterMap f = (f x).toList ++ xs.filterMap f := by
  cases h : f x with
  | none => simp [h]
  | some y => simp [h]

/-- The buffers are that of one vector and those of the others. -/
theorem buffers_perm (ha : a ∈ w.objs) : w.buffers.Perm ((w.vec a).buffer.toList ++ w.others a) := by
  have hperm := (List.perm_cons_erase ha).filterMap fun a => (w.vec a).buffer
  rw [filterMap_cons_toList] at hperm
  exact hperm

theorem mem_others (hb : b ∈ w.objs) (hne : b ≠ a) {p : Block} (hp : (w.vec b).buffer = some p) :
    p ∈ w.others a :=
  List.mem_filterMap.mpr ⟨b, (List.mem_erase_of_ne hne).mpr hb, hp⟩

theorem range_mem (ha : a ∈ w.objs) : (w.vec a).range T ∈ w.ranges T := List.mem_map_of_mem ha

theorem Inv.buffer_mem (ha : a ∈ w.objs) {p : Block} (hp : (w.vec a).buffer = some p) :
    p ∈ w.buffers ++ loose :=
  List.mem_append_left _ (List.mem_filterMap.mpr ⟨a, ha, hp⟩)

/-- The elements of a vector are not where those of another are. -/
theorem Inv.addr_ne (h : Inv T w lists loose) (ha : a ∈ w.objs) (hb : b ∈ w.objs) (hne : a ≠ b) :
    (w.vec a).ptr.1.addr ≠ (w.vec b).ptr.1.addr := by
  have hposa : 0 < (w.vec a).storageSize T := storageSize_pos
  have hposb : 0 < (w.vec b).storageSize T := storageSize_pos
  by_cases hsa : (w.vec a).isSmall <;> by_cases hsb : (w.vec b).isSmall
  · rw [isSmall, h.this a ha] at hsa
    rw [isSmall, h.this b hb] at hsb
    rw [hsa, hsb]
    omega
  · have hapart := h.layout.beside _ (range_mem ha) _ (Inv.buffer_mem hb (buffer_of_not_isSmall hsb))
    unfold isSmall at hsa
    unfold Apart Block.range range at hapart
    dsimp only at hapart
    omega
  · have hapart := h.layout.beside _ (range_mem hb) _ (Inv.buffer_mem ha (buffer_of_not_isSmall hsa))
    unfold isSmall at hsb
    unfold Apart Block.range range at hapart
    dsimp only at hapart
    omega
  · have hperm : (w.buffers ++ loose).Perm ((w.vec a).ptr :: (w.others a ++ loose)) := by
      have hperm := (buffers_perm ha).append_right loose
      rw [buffer_of_not_isSmall hsa] at hperm
      exact hperm
    have hapart := (List.pairwise_cons.mp (h.layout.perm hperm.symm).blocks.apart).1 _
      (List.mem_append_left _ (mem_others hb hne.symm (buffer_of_not_isSmall hsb)))
    unfold Apart Block.range at hapart
    dsimp only at hapart
    omega

/-- One vector is changed, with its elements. -/
theorem Inv.set (h : Inv T w lists loose) (ha : a ∈ w.objs) (hthis : v.this = (w.vec a).this)
    (hN : v.N = (w.vec a).N)
    (hlayout : Objects sys (w.ranges T) (v.buffer.toList ++ (w.others a ++ loose')))
    (hvalid : v.Valid T) (hsz : v.sz = l.length)
    (hholds : Cells.Holds (mem v.ptr.1.addr) l)
    (hframe : ∀ b ∈ w.objs, b ≠ a → mem (w.vec b).ptr.1.addr = w.mem (w.vec b).ptr.1.addr) :
    Inv T { w with vec := Function.update w.vec a v, mem, sys } (Function.update lists a l) loose' := by
  have hne : ∀ b ∈ w.objs.erase a, b ≠ a := fun b hb heq => h.nodup.not_mem_erase (heq ▸ hb)
  have hranges : ranges T { w with vec := Function.update w.vec a v, mem, sys } = w.ranges T := by
    apply List.map_congr_left
    intro b hb
    dsimp only
    by_cases hba : b = a
    · subst hba
      rw [Function.update_self, range, range, storageSize, storageSize, hthis, hN]
    · rw [Function.update_of_ne hba]
  have hothers : others { w with vec := Function.update w.vec a v, mem, sys } a = w.others a := by
    apply List.filterMap_congr
    intro b hb
    dsimp only
    rw [Function.update_of_ne (hne b hb)]
  have hbuffers :
    (buffers { w with vec := Function.update w.vec a v, mem, sys }).Perm (v.buffer.toList ++ w.others a) := by
    have hperm := buffers_perm (w := { w with vec := Function.update w.vec a v, mem, sys }) ha
    rw [hothers] at hperm
    dsimp only at hperm
    rwa [Function.update_self] at hperm
  have hall : ∀ {P : ℕ → Prop}, P a → (∀ b ∈ w.objs, b ≠ a → P b) → ∀ b ∈ w.objs, P b := by
    intro P hself hother b hb
    by_cases hba : b = a
    · exact hba ▸ hself
    · exact hother b hb hba
  refine ⟨?_, h.nodup, hall ?_ ?_, hall ?_ ?_, hall ?_ ?_, hall ?_ ?_⟩
  · rw [hranges]
    refine hlayout.perm ?_
    rw [← List.append_assoc]
    exact hbuffers.append_right _
  · dsimp only
    rw [Function.update_self, hthis, h.this a ha]
  · intro b hb hba
    dsimp only
    rw [Function.update_of_ne hba, h.this b hb]
  · dsimp only
    rw [Function.update_self]
    exact hvalid
  · intro b hb hba
    dsimp only
    rw [Function.update_of_ne hba]
    exact h.valid b hb
  · dsimp only
    rw [Function.update_self, Function.update_self, hsz]
  · intro b hb hba
    dsimp only
    rw [Function.update_of_ne hba, Function.update_of_ne hba, h.sz b hb]
  · unfold cells
    dsimp only
    rw [Function.update_self, Function.update_self]
    exact hholds
  · intro b hb hba
    unfold cells
    dsimp only
    rw [Function.update_of_ne hba, Function.update_of_ne hba, hframe b hb hba]
    exact h.holds b hb

theorem Inv.layout_of_mem (h : Inv T w lists loose) (ha : a ∈ w.objs) :
    Objects w.sys (w.ranges T) ((w.vec a).buffer.toList ++ (w.others a ++ loose)) := by
  refine h.layout.perm ?_
  rw [← List.append_assoc]
  exact ((buffers_perm ha).append_right _).symm

/-- Elements are changed in place. -/
theorem Inv.setElems (h : Inv T w lists loose) (ha : a ∈ w.objs) (hle : sz ≤ (w.vec a).cap)
    (hsz : sz = l.length) (hholds : c.Holds l) :
    Inv T (w.setElems a c sz) (Function.update lists a l) loose := by
  have hvalid := h.valid a ha
  refine h.set ha rfl rfl (h.layout_of_mem ha) ⟨hvalid.small, hle, hvalid.fits⟩ hsz ?_ fun b hb hba => ?_
  · rw [Function.update_self]
    exact hholds
  · rw [Function.update_of_ne (h.addr_ne hb ha hba)]

/-- A block that is beside the object of a vector is not in it. -/
theorem addr_ne_of_beside (ha : a ∈ w.objs) (hthis : (w.vec a).this = a) {held : List Block}
    (hlayout : Objects sys (w.ranges T) held) {p : Block}
    (hp : p ∈ held) : p.1.addr ≠ a + headerSize := by
  have hpos : 0 < (w.vec a).storageSize T := storageSize_pos
  have hapart := hlayout.beside _ (range_mem ha) _ hp
  unfold Apart Block.range range at hapart
  rw [hthis] at hapart
  dsimp only at hapart
  omega

/-- One vector gets another buffer, and the elements of a list in it. -/
theorem Inv.replace (h : Inv T w lists loose) (ha : a ∈ w.objs) {p : Block} {cap : ℕ}
    (hlayout : Objects sys (w.ranges T) (p :: (w.others a ++ loose'))) (hle : l.length ≤ cap)
    (hfits : cap * T.size ≤ p.2)
    (hholds : Cells.Holds (mem p.1.addr) l)
    (hframe : ∀ addr, addr ≠ p.1.addr → addr ≠ (w.vec a).ptr.1.addr → mem addr = w.mem addr) :
    Inv T { w with vec := Function.update w.vec a { w.vec a with
      ptr := p, sz := l.length, cap }, mem, sys } (Function.update lists a l) loose' := by
  have hthis := h.this a ha
  have hlarge : ¬ isSmall { w.vec a with ptr := p, sz := l.length, cap } := by
    have hne := addr_ne_of_beside ha hthis hlayout List.mem_cons_self
    unfold isSmall
    dsimp only
    rwa [hthis]
  refine h.set ha rfl rfl ?_ ⟨fun hsmall => absurd hsmall hlarge, hle, hfits⟩ rfl hholds fun b hb hba =>
    hframe _ ?_ (h.addr_ne hb ha hba)
  · rw [buffer_of_not_isSmall hlarge]
    exact hlayout
  · by_cases hsmall : (w.vec b).isSmall
    · have hne := addr_ne_of_beside hb (h.this b hb) hlayout List.mem_cons_self
      rw [isSmall, h.this b hb] at hsmall
      rw [hsmall]
      exact hne.symm
    · have hmem := mem_others hb hba (buffer_of_not_isSmall hsmall)
      have hapart := (List.pairwise_cons.mp hlayout.blocks.apart).1 _ (List.mem_append_left _ hmem)
      unfold Apart Block.range at hapart
      dsimp only at hapart
      omega

/-- What a vector points to is less than half of the address space. -/
theorem Inv.bytes_lt (h : Inv T w lists loose) (ha : a ∈ w.objs) : (w.vec a).ptr.2 < 2 ^ 63 := by
  by_cases hsmall : (w.vec a).isSmall
  · have hbound := h.layout.bound _ (range_mem ha)
    rw [(h.valid a ha).small hsmall]
    unfold range headerSize at hbound
    unfold smallPtr
    dsimp only at hbound ⊢
    omega
  · have hmem : (w.vec a).ptr ∈ w.buffers ++ loose := Inv.buffer_mem ha (buffer_of_not_isSmall hsmall)
    have hbound := h.layout.blocks.bound _ hmem
    have hpos := h.layout.blocks.pos _ hmem
    omega

theorem Inv.cap_lt (h : Inv T w lists loose) (ha : a ∈ w.objs) : (w.vec a).cap < 2 ^ 63 := by
  have hle : (w.vec a).cap ≤ (w.vec a).cap * T.size := Nat.le_mul_of_pos_right _ T.pos
  exact (hle.trans (h.valid a ha).fits).trans_lt (h.bytes_lt ha)

/-! ### Growth -/

theorem le_calcNewCapacity (cap minSize : ℕ) : minSize ≤ calcNewCapacity cap minSize := by
  rw [calcNewCapacity]
  split <;> omega

theorem lt_calcNewCapacity {cap : ℕ} (hcap : cap < 2 ^ 63) (minSize : ℕ) :
    cap < calcNewCapacity cap minSize := by
  rw [calcNewCapacity]
  split <;> omega

/-- What a vector grows to. -/
def newBytes (T : ElemType α) (v : SmallVector) (newSize : ℕ) : ℕ := calcNewCapacity v.cap newSize * T.size

/-- The system answers a vector that grows; `realloc` gives the buffer back before. -/
def Answers (T : ElemType α) (sys : Sys) (ranges : List (ℕ × ℕ)) (v : SmallVector)
    (newSize answer : ℕ) : Prop :=
  (if T.isTrivial ∧ ¬ v.isSmall then sys.deleteAll [v.ptr] else sys).FreshBeside ranges
    (newBytes T v newSize % 2 ^ 64) answer

/-- The vector that grows is changed in its buffer and its capacity. -/
theorem grow_vec (hgrow : w.grow T a newSize answer = some w') : w'.objs = w.objs ∧ ∃ ptr,
    w'.vec = Function.update w.vec a
      { w.vec a with
        ptr := (ptr, newBytes T (w.vec a) newSize % 2 ^ 64)
        cap := calcNewCapacity (w.vec a).cap newSize } := by
  unfold grow growTrivial growMoving at hgrow
  dsimp only at hgrow
  split at hgrow
  · split at hgrow
    · cases hgrow
    · split at hgrow
      all_goals
        cases hgrow
        exact ⟨rfl, _, rfl⟩
  · split at hgrow
    · cases hgrow
    · cases hgrow
      exact ⟨rfl, _, rfl⟩

theorem Inv.grow (h : Inv T w lists loose) (ha : a ∈ w.objs) (hgrow : w.grow T a newSize answer = some w')
    (hanswer : Answers T w.sys (w.ranges T) (w.vec a) newSize answer)
    (hfits : newBytes T (w.vec a) newSize < 2 ^ 64) : Inv T w' lists loose := by
  have hvalid := h.valid a ha
  have hsz := h.sz a ha
  have hcap := lt_calcNewCapacity (h.cap_lt ha) newSize
  have hlen : (lists a).length ≤ (w.vec a).cap := hsz ▸ hvalid.le
  have hle : (lists a).length ≤ calcNewCapacity (w.vec a).cap newSize := hlen.trans hcap.le
  have hlayout := h.layout_of_mem ha
  have hmoved : (Cells.uninitializedMove (fun _ => none) (w.cells a) (lists a).length).Holds
    (lists a) := (h.holds a ha).uninitializedMove
  have hsame : Function.update lists a (lists a) = lists := Function.update_eq_self a lists
  have hbytes :
    newBytes T (w.vec a) newSize % 2 ^ 64 = calcNewCapacity (w.vec a).cap newSize * T.size :=
    Nat.mod_eq_of_lt hfits
  rw [Answers, hbytes] at hanswer
  rw [newBytes] at hfits
  unfold Vectors.grow growTrivial growMoving at hgrow
  simp only [Nat.mod_eq_of_lt hfits] at hgrow
  split at hgrow
  case isTrue htrivial =>
    split at hgrow
    case isTrue => cases hgrow
    case isFalse =>
      split at hgrow
      case isTrue hsmall =>
        rw [if_neg fun hnot => hnot.2 hsmall] at hanswer
        rw [buffer_of_isSmall hsmall] at hlayout
        cases hgrow
        rw [← hsame, hsz]
        refine h.replace ha (hlayout.new hanswer) hle le_rfl ?_ fun addr hne _ =>
          Function.update_of_ne hne _ _
        change Cells.Holds (Function.update w.mem answer _ answer) _
        rw [Function.update_self]
        exact hmoved
      case isFalse hlarge =>
        rw [if_pos ⟨htrivial, hlarge⟩] at hanswer
        rw [buffer_of_not_isSmall hlarge] at hlayout
        cases hgrow
        rw [← hsame, hsz]
        refine h.replace ha ((Objects.delete hlayout).new hanswer) hle le_rfl ?_ fun addr hne _ =>
          Function.update_of_ne hne _ _
        change Cells.Holds (Function.update w.mem answer _ answer) _
        rw [Function.update_self]
        refine (h.holds a ha).congr fun i hi => if_pos ?_
        have hin : (i + 1) * T.size ≤ (w.vec a).cap * T.size := Nat.mul_le_mul_right _ (by omega)
        exact le_min (hin.trans hvalid.fits) (hin.trans (Nat.mul_le_mul_right _ hcap.le))
  case isFalse htrivial =>
    rw [if_neg fun hnot => htrivial hnot.1] at hanswer
    split at hgrow
    case isTrue => cases hgrow
    case isFalse =>
      cases hgrow
      rw [← hsame, hsz]
      refine h.replace ha ?_ hle le_rfl ?_ fun addr (hne : addr ≠ answer) hold => ?_
      · have hnew := hlayout.new hanswer
        split
        case isTrue hsmall =>
          rw [buffer_of_isSmall hsmall] at hnew
          exact hnew
        case isFalse hlarge =>
          rw [buffer_of_not_isSmall hlarge] at hnew
          exact Objects.delete (hnew.perm (List.Perm.swap ..))
      · change Cells.Holds (Function.update (Function.update w.mem _ _) answer _ answer) _
        rw [Function.update_self]
        exact hmoved
      · rw [Function.update_of_ne hne, Function.update_of_ne hold]

theorem Inv.sz_lt (h : Inv T w lists loose) (ha : a ∈ w.objs) : (lists a).length < 2 ^ 63 :=
  h.sz a ha ▸ (h.valid a ha).le.trans_lt (h.cap_lt ha)

/-- `reserve` leaves room, and the elements as they are. -/
theorem Inv.reserve (h : Inv T w lists loose) (ha : a ∈ w.objs)
    (hreserve : w.reserve T a newSize answer = some w')
    (hanswer : (w.vec a).cap < newSize → Answers T w.sys (w.ranges T) (w.vec a) newSize answer)
    (hfits : (w.vec a).cap < newSize → newBytes T (w.vec a) newSize < 2 ^ 64) :
    Inv T w' lists loose ∧ newSize ≤ (w'.vec a).cap ∧ w'.objs = w.objs := by
  unfold Vectors.reserve at hreserve
  split at hreserve
  case isTrue hlt =>
    obtain ⟨hobjs, ptr, hvec⟩ := grow_vec hreserve
    refine ⟨h.grow ha hreserve (hanswer hlt) (hfits hlt), ?_, hobjs⟩
    rw [hvec, Function.update_self]
    exact le_calcNewCapacity _ _
  case isFalse hge =>
    cases hreserve
    exact ⟨h, not_lt.mp hge, rfl⟩

/-- `ensure_space` is `reserve` of the size after. -/
theorem reserve_of_ensureSpace {n : ℕ} (h : Inv T w lists loose) (ha : a ∈ w.objs)
    (hlt : (lists a).length + n < 2 ^ 64)
    (hensure : w.ensureSpace T a n answer = some w') :
      w.reserve T a ((lists a).length + n) answer = some w' := by
  unfold ensureSpace at hensure
  rw [h.sz a ha] at hensure
  dsimp only at hensure
  rw [Nat.mod_eq_of_lt hlt] at hensure
  split at hensure
  · exact hensure
  · cases hensure

/-! ### The calls -/

section
variable {x : α} {xs : List α} {n start stop : ℕ}

theorem Inv.clear (h : Inv T w lists loose) (ha : a ∈ w.objs) :
    Inv T (w.clear a) (Function.update lists a []) loose :=
  h.setElems ha (Nat.zero_le _) rfl Cells.holds_nil

theorem Inv.pushBack (h : Inv T w lists loose) (ha : a ∈ w.objs) (hpush : w.pushBack T a x answer = some w')
    (hanswer : (w.vec a).cap < (lists a).length + 1 →
      Answers T w.sys (w.ranges T) (w.vec a) ((lists a).length + 1) answer)
    (hfits : (w.vec a).cap < (lists a).length + 1 → newBytes T (w.vec a) ((lists a).length + 1) < 2 ^ 64) :
    Inv T w' (Function.update lists a (lists a ++ [x])) loose := by
  have hlt := h.sz_lt ha
  obtain ⟨w₁, hensure, rfl⟩ := Option.map_eq_some_iff.mp hpush
  have hreserve := reserve_of_ensureSpace h ha (by omega) hensure
  obtain ⟨h₁, hroom, hobjs⟩ := h.reserve ha hreserve hanswer hfits
  have ha₁ : a ∈ w₁.objs := hobjs ▸ ha
  rw [h₁.sz a ha₁, Nat.mod_eq_of_lt (by omega)]
  refine h₁.setElems ha₁ hroom ?_ (h₁.holds a ha₁).construct
  rw [List.length_append, List.length_singleton]

theorem Inv.popBack (h : Inv T w lists loose) (ha : a ∈ w.objs) (hpop : w.popBack a = some w') :
    Inv T w' (Function.update lists a (lists a).dropLast) loose := by
  have hle := (h.valid a ha).le
  unfold Vectors.popBack at hpop
  rw [h.sz a ha] at hpop hle
  dsimp only at hpop
  split at hpop
  case isTrue hpos =>
    cases hpop
    refine h.setElems ha (by omega) List.length_dropLast.symm ?_
    rw [List.dropLast_eq_take]
    exact (h.holds a ha).destroy
  case isFalse => cases hpop

theorem Inv.append (h : Inv T w lists loose) (ha : a ∈ w.objs) (hxs : xs.length < 2 ^ 63)
    (happend : w.append T a xs answer = some w')
    (hanswer : (w.vec a).cap < (lists a).length + xs.length →
      Answers T w.sys (w.ranges T) (w.vec a) ((lists a).length + xs.length) answer)
    (hfits : (w.vec a).cap < (lists a).length + xs.length →
      newBytes T (w.vec a) ((lists a).length + xs.length) < 2 ^ 64) :
    Inv T w' (Function.update lists a (lists a ++ xs)) loose := by
  have hlt := h.sz_lt ha
  unfold Vectors.append at happend
  rw [h.sz a ha] at happend
  dsimp only at happend
  rw [Nat.mod_eq_of_lt (by omega)] at happend
  obtain ⟨w₁, hreserve, rfl⟩ := Option.map_eq_some_iff.mp happend
  obtain ⟨h₁, hroom, hobjs⟩ := h.reserve ha hreserve hanswer hfits
  have ha₁ : a ∈ w₁.objs := hobjs ▸ ha
  exact h₁.setElems ha₁ hroom List.length_append.symm (h₁.holds a ha₁).construct

theorem Inv.resize (h : Inv T w lists loose) (ha : a ∈ w.objs) (hresize : w.resize T a n x answer = some w')
    (hanswer : (lists a).length < n → (w.vec a).cap < n → Answers T w.sys (w.ranges T) (w.vec a) n answer)
    (hfits : (lists a).length < n → (w.vec a).cap < n → newBytes T (w.vec a) n < 2 ^ 64) :
    Inv T w' (Function.update lists a ((lists a).take n ++ List.replicate (n - (lists a).length) x))
      loose := by
  have hle := (h.valid a ha).le
  unfold Vectors.resize at hresize
  rw [h.sz a ha] at hresize hle
  dsimp only at hresize
  split at hresize
  case isTrue hless =>
    cases hresize
    rw [Nat.sub_eq_zero_of_le hless.le, List.replicate_zero, List.append_nil]
    exact h.setElems ha (by omega) (List.length_take_of_le hless.le).symm (h.holds a ha).destroy
  case isFalse hge =>
    rw [List.take_of_length_le (not_lt.mp hge)]
    split at hresize
    case isTrue hmore =>
      obtain ⟨w₁, hreserve, rfl⟩ := Option.map_eq_some_iff.mp hresize
      obtain ⟨h₁, hroom, hobjs⟩ := h.reserve ha hreserve (hanswer hmore) (hfits hmore)
      have ha₁ : a ∈ w₁.objs := hobjs ▸ ha
      refine h₁.setElems ha₁ hroom ?_ (h₁.holds a ha₁).construct
      rw [List.length_append, List.length_replicate]
      omega
    case isFalse hnot =>
      cases hresize
      rw [Nat.sub_eq_zero_of_le (not_lt.mp hnot), List.replicate_zero, List.append_nil,
        Function.update_eq_self]
      exact h

theorem Inv.erase (h : Inv T w lists loose) (ha : a ∈ w.objs) (herase : w.erase T a start stop = some w') :
    w'.objs = w.objs ∧
      Inv T w' (Function.update lists a (Cells.erased T.selfMove (lists a) start stop)) loose := by
  have hle := (h.valid a ha).le
  unfold Vectors.erase at herase
  rw [h.sz a ha] at herase hle
  dsimp only at herase
  split at herase
  case isTrue hrange =>
    obtain ⟨hstart, hstop⟩ := hrange
    cases herase
    have hlen : (Cells.erased T.selfMove (lists a) start stop).length =
      start + ((lists a).length - stop) := Cells.length_erased hstart hstop
    have hend : (Cells.eraseLoop T.selfMove ((lists a).length - stop) start stop (w.cells a)).1 =
      start + ((lists a).length - stop) :=
      (Cells.eraseLoop_spec hstart).1
    refine ⟨rfl, h.setElems ha ?_ ?_ ?_⟩
    · rw [hend]
      omega
    · rw [hend, hlen]
    · have hloop : (Cells.eraseLoop T.selfMove ((lists a).length - stop) start stop (w.cells a)).2.Holds
        (Cells.erased T.selfMove (lists a) start stop) :=
        (h.holds a ha).eraseLoop hstart hstop
      rw [hend, ← List.take_of_length_le hlen.le]
      exact hloop.destroy
  case isFalse => cases herase

end

/-! ### Moves -/

/-- The changes to the elements leave the objects where they are. -/
@[simp] theorem ranges_setElems : (w.setElems a c sz).ranges T = w.ranges T := by
  apply List.map_congr_left
  intro b hb
  by_cases hba : b = a
  · subst hba
    simp only [setElems, Function.update_self]
    rfl
  · simp only [setElems, Function.update_of_ne hba]

@[simp] theorem vec_setElems : (w.setElems a c sz).vec a = { w.vec a with sz } := Function.update_self ..

theorem vec_setElems_of_ne (hba : b ≠ a) : (w.setElems a c sz).vec b = w.vec b := Function.update_of_ne hba ..

/-- A buffer is taken from a vector, to one that has none. -/
theorem Inv.steal (h : Inv T w lists []) (ha : a ∈ w.objs) (ho : other ∈ w.objs) (hne : a ≠ other)
    (hsmall : (w.vec a).isSmall)
    (hlarge : ¬ (w.vec other).isSmall) :
    Inv T ((w.setVec a { w.vec a with
      ptr := (w.vec other).ptr, sz := (w.vec other).sz, cap := (w.vec other).cap }).setVec other
      ((w.vec other).taken T)) (Function.update (Function.update lists a (lists other)) other []) [] := by
  have hvalid := h.valid other ho
  have htaken : isSmall ((w.vec other).taken T) := rfl
  -- first the other one is emptied, which leaves its buffer to nobody
  have hempty :
    Inv T (w.setVec other ((w.vec other).taken T)) (Function.update lists other []) [(w.vec other).ptr] := by
    refine h.set ho rfl rfl ?_ ⟨fun _ => rfl, le_rfl, (Nat.zero_mul _).le.trans (Nat.zero_le _)⟩ rfl
      Cells.holds_nil fun b _ _ => rfl
    have hlayout := h.layout_of_mem ho
    rw [buffer_of_not_isSmall hlarge, List.append_nil] at hlayout
    rw [buffer_of_isSmall htaken]
    exact hlayout.perm (List.perm_append_singleton ..)
  have hvec : (w.setVec other ((w.vec other).taken T)).vec a = w.vec a := Function.update_of_ne hne ..
  have hlayout := hempty.layout_of_mem ha
  rw [hvec, buffer_of_isSmall hsmall] at hlayout
  have hfull : Inv T ((w.setVec other ((w.vec other).taken T)).setVec a
        { w.vec a with ptr := (w.vec other).ptr, sz := (lists other).length, cap := (w.vec other).cap })
      (Function.update (Function.update lists other []) a (lists other)) [] := by
    rw [← hvec]
    refine hempty.replace ha (hlayout.perm ?_) ?_ hvalid.fits (h.holds other ho) fun addr _ _ => rfl
    · rw [List.append_nil]
      exact (List.perm_append_singleton ..).symm
    · exact h.sz other ho ▸ hvalid.le
  rw [← h.sz other ho, setVec, setVec] at hfull
  rw [setVec, setVec, Function.update_comm hne, Function.update_comm hne]
  exact hfull

theorem Inv.moveAssign (h : Inv T w lists []) (ha : a ∈ w.objs) (ho : other ∈ w.objs)
    (hmove : w.moveAssign T a other answer = some w')
    (hsmall : (w.vec a).isSmall ∨ (w.vec other).isSmall)
    (hanswer : a ≠ other → (w.vec other).isSmall → (w.vec a).cap < (w.vec other).sz →
      Answers T w.sys (w.ranges T) (w.vec a) (w.vec other).sz answer)
    (hfits : a ≠ other → (w.vec other).isSmall → (w.vec a).cap < (w.vec other).sz →
      newBytes T (w.vec a) (w.vec other).sz < 2 ^ 64) :
    Inv T w' (Function.update (Function.update lists a (lists other)) other []) [] := by
  have hclear := h.clear ha
  have hvec : (w.clear a).vec a = { w.vec a with sz := 0 } := vec_setElems
  unfold Vectors.moveAssign at hmove
  dsimp only at hmove
  by_cases hne : a = other
  · subst hne
    rw [or_self] at hsmall
    rw [if_neg (not_not.mpr (show isSmall ((w.clear a).vec a) by rw [hvec]; exact hsmall))] at hmove
    obtain ⟨w₁, hreserve, rfl⟩ := Option.map_eq_some_iff.mp hmove
    have hkept : w₁ = w.clear a := by
      rw [hvec, Vectors.reserve, if_neg (Nat.not_lt_zero _)] at hreserve
      exact (Option.some_inj.mp hreserve).symm
    subst hkept
    rw [Function.update_idem]
    have hagain :=
      hclear.setElems
        (c := ((w.clear a).cells a).uninitializedMove ((w.clear a).cells a) ((w.clear a).vec a).sz) ha
      (Nat.zero_le _) rfl Cells.holds_nil
    have hdone := hagain.clear ha
    rw [Function.update_idem, Function.update_idem] at hdone
    rw [hvec] at hdone ⊢
    exact hdone
  · have hother : (w.clear a).vec other = w.vec other := vec_setElems_of_ne (Ne.symm hne)
    have hlists : Function.update lists a [] other = lists other := Function.update_of_ne (Ne.symm hne) ..
    rw [hother] at hmove
    split at hmove
    case isTrue hlarge =>
      have hsmall := hsmall.resolve_right hlarge
      have hfull :=
        hclear.steal ha ho hne (show isSmall ((w.clear a).vec a) by rw [hvec]; exact hsmall) (by rwa [hother])
      rw [hother, hlists, Function.update_idem] at hfull
      rw [show ((w.clear a).setVec a _).vec other = w.vec other from
        (Function.update_of_ne (Ne.symm hne) ..).trans hother] at hmove
      cases hmove
      exact hfull
    case isFalse hnot =>
      have hsmallOther := not_not.mp hnot
      obtain ⟨w₁, hreserve, rfl⟩ := Option.map_eq_some_iff.mp hmove
      have hranges : (w.clear a).ranges T = w.ranges T := ranges_setElems
      obtain ⟨h₁, hroom, hobjs⟩ := hclear.reserve ha hreserve
        (by rw [hranges, hvec]; exact hanswer hne hsmallOther) (by rw [hvec]; exact hfits hne hsmallOther)
      have ha₁ : a ∈ w₁.objs := hobjs ▸ ha
      have ho₁ : other ∈ w₁.objs := hobjs ▸ ho
      have hsz := h₁.sz other ho₁
      have hholds := h₁.holds other ho₁
      rw [hlists] at hsz hholds
      have hroom : (w₁.vec other).sz ≤ (w₁.vec a).cap := by
        rw [hsz, ← h.sz other ho]
        exact hroom
      have hmoved : ((w₁.cells a).uninitializedMove (w₁.cells other) (w₁.vec other).sz).Holds
        (lists other) := hsz ▸ hholds.uninitializedMove
      have hdone := (h₁.setElems ha₁ hroom hsz hmoved).clear ho₁
      rw [Function.update_idem] at hdone
      exact hdone

/-! ### Construction and destruction -/

theorem ranges_construct {N : ℕ} (hnot : a ∉ w.objs) :
    (w.construct T a N).ranges T = (fresh T a N).range T :: w.ranges T := by
  unfold ranges Vectors.construct setVec
  dsimp only
  rw [List.map_cons, Function.update_self]
  congr 1
  apply List.map_congr_left
  intro b hb
  have hne : b ≠ a := fun heq => hnot (heq ▸ hb)
  rw [Function.update_of_ne hne]

/-- A vector that is constructed. -/
theorem Inv.construct {N : ℕ} (h : Inv T w lists [])
    (hvacant : w.sys.Vacant (w.ranges T) ((fresh T a N).range T)) :
    Inv T (w.construct T a N) (Function.update lists a []) [] ∧ a ∉ w.objs := by
  have hnot : a ∉ w.objs := by
    intro ha
    have hapart := hvacant.objects _ (range_mem ha)
    unfold Apart range fresh headerSize at hapart
    rw [h.this a ha] at hapart
    dsimp only at hapart
    omega
  have hne : ∀ b ∈ w.objs, b ≠ a := fun b hb heq => hnot (heq ▸ hb)
  have hsmall : (fresh T a N).isSmall := rfl
  have hself : (w.construct T a N).vec a = fresh T a N := Function.update_self ..
  have hother : ∀ b ∈ w.objs, (w.construct T a N).vec b = w.vec b :=
    fun b hb => Function.update_of_ne (hne b hb) ..
  have hbuffers : (w.construct T a N).buffers = w.buffers := by
    unfold buffers Vectors.construct setVec
    dsimp only
    rw [filterMap_cons_toList, Function.update_self, buffer_of_isSmall hsmall]
    apply List.filterMap_congr
    intro b hb
    rw [Function.update_of_ne (hne b hb)]
  refine ⟨⟨?_, List.nodup_cons.mpr ⟨hnot, h.nodup⟩, ?_, ?_, ?_, ?_⟩, hnot⟩
  · rw [ranges_construct hnot, hbuffers]
    exact h.layout.place hvacant
  · refine List.forall_mem_cons.mpr ⟨congrArg SmallVector.this hself, fun b hb => ?_⟩
    rw [hother b hb, h.this b hb]
  · refine List.forall_mem_cons.mpr ⟨?_, fun b hb => ?_⟩
    · rw [hself]
      exact ⟨fun _ => rfl, Nat.zero_le _, @le_storageSize _ T { this := a, N, cap := N }⟩
    · rw [hother b hb]
      exact h.valid b hb
  · refine List.forall_mem_cons.mpr ⟨?_, fun b hb => ?_⟩
    · rw [hself, Function.update_self]
      rfl
    · rw [hother b hb, Function.update_of_ne (hne b hb), h.sz b hb]
  · refine List.forall_mem_cons.mpr ⟨?_, fun b hb => ?_⟩
    · rw [Function.update_self]
      exact Cells.holds_nil
    · rw [cells, hother b hb, Function.update_of_ne (hne b hb)]
      exact h.holds b hb

/-- A vector that is destroyed. -/
theorem Inv.destroy (h : Inv T w lists []) (ha : a ∈ w.objs) : Inv T (w.destroy a) lists [] := by
  have hsub : ∀ b ∈ w.objs.erase a, b ∈ w.objs := fun b hb => List.mem_of_mem_erase hb
  have hperm : (w.ranges T).Perm ((w.vec a).range T :: (w.objs.erase a).map fun a => (w.vec a).range T) :=
    (List.perm_cons_erase ha).map fun a => (w.vec a).range T
  have hlayout :
    Objects w.sys ((w.objs.erase a).map fun a => (w.vec a).range T)
    ((w.vec a).buffer.toList ++ (w.others a ++ [])) :=
    ((h.layout_of_mem ha).permObjects hperm.symm).remove
  refine ⟨?_, h.nodup.erase a, fun b hb => h.this b (hsub b hb), fun b hb => h.valid b (hsub b hb),
    fun b hb => h.sz b (hsub b hb), ?_⟩
  · unfold Vectors.destroy
    dsimp only
    split
    case isTrue hsmall =>
      rw [buffer_of_isSmall hsmall] at hlayout
      exact hlayout
    case isFalse hlarge =>
      rw [buffer_of_not_isSmall hlarge] at hlayout
      exact hlayout.delete
  · intro b hb
    have hne : b ≠ a := fun heq => h.nodup.not_mem_erase (heq ▸ hb)
    have hkept : (w.destroy a).cells b = w.cells b := Function.update_of_ne (h.addr_ne (hsub b hb) ha hne) ..
    rw [hkept]
    exact h.holds b (hsub b hb)

end

end Vectors

end Tpde.Util
