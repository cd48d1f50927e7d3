import Mathlib.Tactic

/-!
# Code with labels

Code is a list of instructions, each with a size in bytes, and of labels between them. An
instruction changes the state and goes on with the next one, with a label or with an offset
into the code, or leaves the code through an exit. It sees the positions of the labels and
the other instructions, so that it can take addresses and read tables.
-/

namespace LabelCode

open Relation

/-- An instruction, or a label that stands for the offset of what follows. -/
inductive Item (I L : Type) where
  | inst (i : I)
  | label (l : L)
  deriving DecidableEq, Repr

/-- What an instruction does: a new state, and where it goes on. -/
inductive Effect (σ L B : Type) where
  | next (s : σ)
  | jump (l : L) (s : σ)
  | goto (offset : ℕ) (s : σ)
  | exit (b : B) (s : σ)

/-- An instruction set. `exec` gets what is at an offset and where a label is. -/
structure Isa (I L σ B : Type) where
  size : I → ℕ
  size_pos (i : I) : 0 < size i
  exec (fetch : ℕ → Option I) (offset : L → Option ℕ) (i : I) (s : σ) : Option (Effect σ L B)

variable {I L σ B : Type}

/-- The labels of code. -/
def labels (code : List (Item I L)) : List L :=
  code.filterMap fun
    | .inst _ => none
    | .label l => some l

@[simp] theorem labels_nil : labels ([] : List (Item I L)) = [] := rfl

@[simp] theorem labels_inst (i : I) (code : List (Item I L)) : labels (.inst i :: code) = labels code := rfl

@[simp] theorem labels_label (l : L) (code : List (Item I L)) :
    labels (.label l :: code) = l :: labels code := rfl

@[simp] theorem labels_append (code code' : List (Item I L)) :
    labels (code ++ code') = labels code ++ labels code' :=
  List.filterMap_append

@[simp] theorem labels_map_inst {ι : Type} (f : ι → I) (is : List ι) :
    labels (is.map fun i => (.inst (f i) : Item I L)) = [] := by
  induction is with
  | nil => rfl
  | cons i is ih => simpa using ih

section
variable (M : Isa I L σ B)

/-- The bytes of code. -/
def length (code : List (Item I L)) : ℕ :=
  (code.map fun
    | .inst i => M.size i
    | .label _ => 0).sum

@[simp] theorem length_nil : length M [] = 0 := rfl

@[simp] theorem length_inst (i : I) (code : List (Item I L)) :
    length M (.inst i :: code) = M.size i + length M code := by
  simp [length]

@[simp] theorem length_label (l : L) (code : List (Item I L)) :
    length M (.label l :: code) = length M code := by
  simp [length]

@[simp] theorem length_append (code code' : List (Item I L)) :
    length M (code ++ code') = length M code + length M code' := by
  simp [length]

/-- The instruction at an offset. -/
def fetch : List (Item I L) → ℕ → Option I
  | [], _ => none
  | .label _ :: code, off => fetch code off
  | .inst i :: code, off => if off = 0 then some i else if off < M.size i then none
    else fetch code (off - M.size i)

theorem fetch_append (pre post : List (Item I L)) (k : ℕ) :
    fetch M (pre ++ post) (length M pre + k) = fetch M post k := by
  induction pre with
  | nil => simp
  | cons item pre ih =>
    cases item with
    | label l => simpa [fetch] using ih
    | inst i =>
      have hpos := M.size_pos i
      rw [List.cons_append, fetch, length_inst, if_neg (by omega), if_neg (by omega), ← ih]
      congr 1
      omega

/-- Code at an offset of other code. -/
def CodeAt (code : List (Item I L)) (a : ℕ) (is : List (Item I L)) : Prop :=
  ∃ pre post, code = pre ++ is ++ post ∧ length M pre = a

end

section
variable {M : Isa I L σ B} {code is is' : List (Item I L)} {a : ℕ} {i : I} {l : L} {s s' : σ}

namespace CodeAt

theorem self (code : List (Item I L)) : CodeAt M code 0 code := ⟨[], [], by simp, rfl⟩

theorem left (h : CodeAt M code a (is ++ is')) : CodeAt M code a is := by
  obtain ⟨pre, post, rfl, rfl⟩ := h
  exact ⟨pre, is' ++ post, by simp, rfl⟩

theorem right (h : CodeAt M code a (is ++ is')) : CodeAt M code (a + length M is) is' := by
  obtain ⟨pre, post, rfl, rfl⟩ := h
  exact ⟨pre ++ is, post, by simp, length_append M pre is⟩

theorem tail (h : CodeAt M code a (.inst i :: is)) : CodeAt M code (a + M.size i) is := by
  have h' : CodeAt M code a ([.inst i] ++ is) := h
  simpa using h'.right

theorem behind (h : CodeAt M code a (.label l :: is)) : CodeAt M code a is := by
  have h' : CodeAt M code a ([.label l] ++ is) := h
  simpa using h'.right

theorem fetch (h : CodeAt M code a (.inst i :: is)) : LabelCode.fetch M code a = some i := by
  obtain ⟨pre, post, rfl, rfl⟩ := h
  have h := fetch_append M pre (.inst i :: is ++ post) 0
  rw [Nat.add_zero, ← List.append_assoc] at h
  rw [h]
  rfl

theorem within (h : CodeAt M code a is) : a + length M is ≤ length M code := by
  obtain ⟨pre, post, rfl, rfl⟩ := h
  simp

end CodeAt

variable [DecidableEq L]

/-- Where a label is. -/
def offset (M : Isa I L σ B) : List (Item I L) → L → Option ℕ
  | [], _ => none
  | .inst i :: code, l => (offset M code l).map (M.size i + ·)
  | .label m :: code, l => if m = l then some 0 else offset M code l

theorem offset_append {pre post : List (Item I L)} (h : l ∉ labels pre) :
    offset M (pre ++ post) l = (offset M post l).map (length M pre + ·) := by
  induction pre with
  | nil => simp
  | cons item pre ih =>
    cases item with
    | inst i =>
      rw [List.cons_append, offset, ih h, Option.map_map]
      congr 1
      funext k
      simp [Nat.add_assoc]
    | label m =>
      obtain ⟨hne, h⟩ := not_or.mp (List.mem_cons.not.mp h)
      rw [List.cons_append, offset, if_neg (Ne.symm hne), ih h, length_label]

theorem offset_le {o : ℕ} (h : offset M code l = some o) : o ≤ length M code := by
  induction code generalizing o with
  | nil => cases h
  | cons item code ih =>
    cases item with
    | inst i =>
      obtain ⟨k, hk, rfl⟩ := Option.map_eq_some_iff.mp h
      have := ih hk
      rw [length_inst]
      omega
    | label m =>
      rw [offset] at h
      split_ifs at h with heq
      · cases h
        exact Nat.zero_le _
      · rw [length_label]
        exact ih h

/-- Where each label is placed once, it is where it is placed. -/
theorem CodeAt.offset (h : CodeAt M code a (.label l :: is)) (hnodup : (labels code).Nodup) :
    LabelCode.offset M code l = some a := by
  obtain ⟨pre, post, rfl, rfl⟩ := h
  have hpre : l ∉ labels pre := by
    simp only [labels_append, labels_label] at hnodup
    have hdisj := List.disjoint_of_nodup_append (List.Nodup.of_append_left hnodup)
    exact fun hmem => hdisj hmem List.mem_cons_self
  rw [List.append_assoc, offset_append hpre]
  simp [LabelCode.offset]

/-! ### Runs -/

/-- A machine runs code, or has left it. -/
inductive Config (σ B : Type) where
  | run (pc : ℕ) (s : σ)
  | left (b : B) (s : σ)

/-- One instruction. -/
def step (M : Isa I L σ B) (code : List (Item I L)) : Config σ B → Option (Config σ B)
  | .run pc s =>
    (LabelCode.fetch M code pc).bind fun i =>
      (M.exec (LabelCode.fetch M code) (LabelCode.offset M code) i s).bind fun
        | .next s => some (.run (pc + M.size i) s)
        | .jump l s => (LabelCode.offset M code l).map (.run · s)
        | .goto off s => some (.run off s)
        | .exit b s => some (.left b s)
  | .left .. => none

/-- Any number of instructions. -/
def Runs (M : Isa I L σ B) (code : List (Item I L)) : Config σ B → Config σ B → Prop :=
  ReflTransGen fun c c' => step M code c = some c'

theorem Runs.refl (c : Config σ B) : Runs M code c c := ReflTransGen.refl

theorem Runs.trans {c c' c'' : Config σ B} (h : Runs M code c c') (h' : Runs M code c' c'') :
    Runs M code c c'' :=
  ReflTransGen.trans h h'

theorem Runs.eq_of_left {b : B} {c : Config σ B} (h : Runs M code (.left b s) c) : c = .left b s := by
  rcases ReflTransGen.cases_head h with heq | ⟨c', hstep, -⟩
  · exact heq.symm
  · cases hstep

/-- **A run has one end.** -/
theorem Runs.left_unique {c : Config σ B} {b b' : B} (h : Runs M code c (.left b s))
    (h' : Runs M code c (.left b' s')) :
    b' = b ∧ s' = s := by
  have heq : (.left b' s' : Config σ B) = .left b s := by
    rcases ReflTransGen.total_of_right_unique (fun _ _ _ h h' => Option.some.inj (h.symm.trans h'))
      h h' with h | h
    · exact Runs.eq_of_left h
    · exact (Runs.eq_of_left h).symm
  cases heq
  exact ⟨rfl, rfl⟩

namespace CodeAt

theorem next (h : CodeAt M code a (.inst i :: is))
    (he : M.exec (LabelCode.fetch M code) (LabelCode.offset M code) i s = some (.next s')) :
    Runs M code (.run a s) (.run (a + M.size i) s') := .single (by simp [step, h.fetch, he])

theorem jump (h : CodeAt M code a (.inst i :: is))
    (he : M.exec (LabelCode.fetch M code) (LabelCode.offset M code) i s = some (.jump l s')) {o : ℕ}
    (hl : LabelCode.offset M code l = some o) : Runs M code (.run a s) (.run o s') :=
      .single (by simp [step, h.fetch, he, hl])

/-- A conditional jump. -/
theorem branch (h : CodeAt M code a (.inst i :: is)) {taken : Bool}
    (he : M.exec (LabelCode.fetch M code) (LabelCode.offset M code) i s = some (if taken then .jump l s
      else .next s)) {o : ℕ}
    (hl : LabelCode.offset M code l = some o) :
      Runs M code (.run a s) (.run (if taken then o else a + M.size i) s) := by
  cases taken with
  | true => exact h.jump he hl
  | false => exact h.next he

theorem goto (h : CodeAt M code a (.inst i :: is)) {o : ℕ}
    (he : M.exec (LabelCode.fetch M code) (LabelCode.offset M code) i s = some (.goto o s')) :
    Runs M code (.run a s) (.run o s') := .single (by simp [step, h.fetch, he])

theorem exit (h : CodeAt M code a (.inst i :: is)) {b : B}
    (he : M.exec (LabelCode.fetch M code) (LabelCode.offset M code) i s = some (.exit b s')) :
    Runs M code (.run a s) (.left b s') := .single (by simp [step, h.fetch, he])

/-- Instructions that go on with the next one run in order. -/
theorem straight {ι : Type} {f : ι → I} {g : ι → σ → σ} {rest : List (Item I L)}
    (hexec : ∀ i s, M.exec (LabelCode.fetch M code) (LabelCode.offset M code) (f i) s =
      some (.next (g i s))) (is : List ι)
    (h : CodeAt M code a (is.map (fun i => .inst (f i)) ++ rest)) :
    Runs M code (.run a s)
      (.run (a + length M (is.map fun i => .inst (f i))) (is.foldl (fun s i => g i s) s)) := by
  induction is generalizing a s with
  | nil => simpa using Runs.refl _
  | cons i is ih =>
    have hstep := h.next (hexec i s)
    rw [List.map_cons, List.cons_append] at h
    have hrest := ih (s := g i s) h.tail
    simp only [List.map_cons, length_inst, ← Nat.add_assoc]
    exact hstep.trans hrest

end CodeAt

end

end LabelCode
