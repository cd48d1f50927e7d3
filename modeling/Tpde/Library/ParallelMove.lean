import Mathlib.Data.List.Basic
import Mathlib.Logic.Function.Basic
import Mathlib.Tactic

/-!
# Moves in parallel

Some cells are to get the values of others, all at once, from moves that run one after the
other and one temporary (`Assigns`). `Moved` is what holds between two moves, with one rule
for each kind of move. A value that no cell of a set has, and that the temporary does not
have for one of them, does not come back (`Lost`).
-/

namespace ParallelMove

/-- A move between cells, to the temporary, or from it. -/
inductive Move (V : Type) where
  | move (dst src : V)
  | save (src : V)
  | restore (dst : V)
  deriving DecidableEq, Repr

/-- The cells and the temporary. -/
structure Cells (V W : Type) where
  val : V → W
  tmp : W

variable {V W : Type} [DecidableEq V]

/-- What a move does. -/
def Move.exec : Move V → Cells V W → Cells V W
  | move dst src, c => { c with val := Function.update c.val dst (c.val src) }
  | save src, c => { c with tmp := c.val src }
  | restore dst, c => { c with val := Function.update c.val dst c.tmp }

/-- The moves one after the other. -/
def run (code : List (Move V)) (c : Cells V W) : Cells V W := code.foldl (fun c m => m.exec c) c

@[simp] theorem run_nil (c : Cells V W) : run [] c = c := rfl

@[simp] theorem run_singleton (m : Move V) (c : Cells V W) : run [m] c = m.exec c := rfl

theorem run_append (code code' : List (Move V)) (c : Cells V W) :
    run (code ++ code') c = run code' (run code c) :=
  List.foldl_append

/-- **The moves give the cells their values all at once**: each of `dsts` gets what its
source had, and nothing else changes. -/
def Assigns (code : List (Move V)) (dsts : List V) (src : V → V) : Prop :=
  ∀ (W : Type) (c : Cells V W) (v : V), (run code c).val v = if v ∈ dsts then c.val (src v) else c.val v

/-! ### What the moves keep -/

/-- The cells `done` have their values, the others those from before, and the temporary
that of the cell that is saved. -/
structure Moved (c₀ : Cells V W) (src : V → V) (done : List V) (saved : Option V) (c : Cells V W) : Prop where
  val : ∀ v, c.val v = if v ∈ done then c₀.val (src v) else c₀.val v
  tmp : ∀ p, saved = some p → c.tmp = c₀.val p

namespace Moved

variable {c₀ c : Cells V W} {src : V → V} {done : List V} {saved : Option V} {p : V}

theorem init (c₀ : Cells V W) (src : V → V) : Moved c₀ src [] none c₀ where
  val := by simp
  tmp := by simp

/-- One more cell has its value. -/
theorem write (h : Moved c₀ src done saved c) {x : W} (hx : x = c₀.val (src p)) (v : V) :
    Function.update c.val p x v = if v ∈ done ++ [p] then c₀.val (src v) else c₀.val v := by
  by_cases hv : v = p
  · subst hv
    simp [hx]
  · rw [Function.update_of_ne hv, h.val]
    simp [hv]

/-- A cell that is its own source has its value already. -/
theorem stay (h : Moved c₀ src done saved c) (hp : src p = p) : Moved c₀ src (done ++ [p]) saved c where
  val v := by
    rw [h.val]
    by_cases hv : v = p
    · subst hv
      simp [hp]
    · simp [hv]
  tmp := h.tmp

theorem move (h : Moved c₀ src done saved c) (hp : src p ∉ done) :
    Moved c₀ src (done ++ [p]) saved ((Move.move p (src p)).exec c) where
  val := h.write (by rw [h.val, if_neg hp])
  tmp := h.tmp

theorem save (h : Moved c₀ src done saved c) (hp : p ∉ done) :
    Moved c₀ src done (some p) ((Move.save p).exec c) where
  val := h.val
  tmp q hq := by
    obtain rfl := Option.some.inj hq
    exact (h.val p).trans (if_neg hp)

theorem restore (h : Moved c₀ src done (some (src p)) c) :
    Moved c₀ src (done ++ [p]) none ((Move.restore p).exec c) where
  val := h.write (h.tmp _ rfl)
  tmp := by simp

end Moved

/-- The move of a cell that is not its own source. -/
def moveUnlessSelf (src : V → V) (p : V) : List (Move V) := if src p = p then [] else [.move p (src p)]

/-- Where no cell has another one of them as its source, the moves may run in any order. -/
theorem assigns_of_apart {src : V → V} {dsts : List V} (h : ∀ p ∈ dsts, src p ∈ dsts → src p = p) :
    Assigns (dsts.flatMap (moveUnlessSelf src)) dsts src := by
  intro W c₀
  suffices hm : ∀ l, l <+: dsts → Moved c₀ src l none (run (l.flatMap (moveUnlessSelf src)) c₀) from
    (hm dsts (List.prefix_refl _)).val
  intro l
  induction l using List.reverseRecOn with
  | nil => exact fun _ => .init c₀ src
  | append_singleton l p ih =>
    intro hl
    have hm := ih ((List.prefix_append l [p]).trans hl)
    rw [List.flatMap_append, List.flatMap_singleton, run_append, moveUnlessSelf]
    by_cases hp : src p = p
    · rw [if_pos hp]
      exact hm.stay hp
    · rw [if_neg hp]
      refine hm.move fun hmem => hp (h p (hl.subset (by simp)) (hl.subset ?_))
      exact List.mem_append_left _ hmem

/-! ### What is lost -/

/-- No cell of a set has the value, and the temporary does not have it for one of them. -/
structure Lost (S : V → Prop) (x : W) (saved : Option V) (c : Cells V W) : Prop where
  val : ∀ v, S v → c.val v ≠ x
  tmp : ∀ v, saved = some v → S v → c.tmp ≠ x

namespace Lost

variable {S : V → Prop} {x : W} {saved : Option V} {c : Cells V W} {dst src : V}

theorem move (h : Lost S x saved c) (hs : S dst → S src) : Lost S x saved ((Move.move dst src).exec c) where
  val v hv := by
    by_cases heq : v = dst
    · subst heq
      simpa [Move.exec] using h.val src (hs hv)
    · simpa [Move.exec, heq] using h.val v hv
  tmp := h.tmp

theorem save (h : Lost S x saved c) : Lost S x (some src) ((Move.save src).exec c) where
  val := h.val
  tmp v hv hS := by
    obtain rfl := Option.some.inj hv
    exact h.val _ hS

theorem restore (h : Lost S x (some src) c) (hs : S dst → S src) :
    Lost S x none ((Move.restore dst).exec c) where
  val v hv := by
    by_cases heq : v = dst
    · subst heq
      simpa [Move.exec] using h.tmp src rfl (hs hv)
    · simpa [Move.exec, heq] using h.val v hv
  tmp := by simp

end Lost

end ParallelMove
