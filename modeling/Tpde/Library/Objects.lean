import Tpde.Library.Storage

/-!
# Objects beside storage

Objects are placed where their owner has room for them, and blocks come from the system. All that are in
use are apart (`Objects`), through all that is placed, removed, obtained and given back.
-/

namespace Storage

open Ranges

/-- The ranges of objects, beside the blocks that are held. -/
structure Objects (sys : Sys) (objs : List (ℕ × ℕ)) (held : List Block) : Prop where
  blocks : Blocks sys held
  bound : ∀ o ∈ objs, o.1 + o.2 ≤ 2 ^ 63
  objects : objs.Pairwise Apart
  beside : ∀ o ∈ objs, ∀ b ∈ held, Apart o b.range

namespace Sys

/-- A range that an object can be placed in. -/
structure Vacant (sys : Sys) (objs : List (ℕ × ℕ)) (o : ℕ × ℕ) : Prop where
  bound : o.1 + o.2 ≤ 2 ^ 63
  objects : ∀ o' ∈ objs, Apart o o'
  blocks : ∀ b, sys.Live b → Apart o b.range

/-- A new block is apart from the objects, too. -/
structure FreshBeside (sys : Sys) (objs : List (ℕ × ℕ)) (size answer : ℕ) :
    Prop extends sys.Fresh size answer where
  objects : ∀ o ∈ objs, Apart o (answer, max size 1)

end Sys

namespace Objects

variable {sys : Sys} {objs objs' : List (ℕ × ℕ)} {held held' bs : List Block} {o : ℕ × ℕ} {size answer : ℕ}

theorem empty : Objects {} [] [] := ⟨.empty, nofun, .nil, nofun⟩

theorem perm (h : Objects sys objs held) (hp : held'.Perm held) : Objects sys objs held' where
  blocks := h.blocks.perm hp
  bound := h.bound
  objects := h.objects
  beside o ho b hb := h.beside o ho b (hp.subset hb)

theorem permObjects (h : Objects sys objs held) (hp : objs'.Perm objs) : Objects sys objs' held where
  blocks := h.blocks
  bound o ho := h.bound o (hp.subset ho)
  objects := (hp.pairwise_iff fun hab => apart_comm.mp hab).mpr h.objects
  beside o ho := h.beside o (hp.subset ho)

/-- Two objects that are placed are apart. -/
theorem apart_of_mem (h : Objects sys (o :: objs) held) {o' : ℕ × ℕ} (ho : o' ∈ objs) : Apart o o' :=
  (List.pairwise_cons.mp h.objects).1 o' ho

theorem place (h : Objects sys objs held) (hvacant : sys.Vacant objs o) : Objects sys (o :: objs) held where
  blocks := h.blocks
  bound := List.forall_mem_cons.mpr ⟨hvacant.bound, h.bound⟩
  objects := List.pairwise_cons.mpr ⟨hvacant.objects, h.objects⟩
  beside := List.forall_mem_cons.mpr ⟨fun b hb => hvacant.blocks b (h.blocks.live hb), h.beside⟩

theorem remove (h : Objects sys (o :: objs) held) : Objects sys objs held where
  blocks := h.blocks
  bound := (List.forall_mem_cons.mp h.bound).2
  objects := (List.pairwise_cons.mp h.objects).2
  beside := (List.forall_mem_cons.mp h.beside).2

theorem new (h : Objects sys objs held) (hfresh : sys.FreshBeside objs size answer) :
    Objects (sys.new size answer).2 objs (((sys.new size answer).1, size) :: held) where
  blocks := h.blocks.new hfresh.toFresh
  bound := h.bound
  objects := h.objects
  beside o ho := List.forall_mem_cons.mpr ⟨hfresh.objects o ho, h.beside o ho⟩

theorem deleteAll (h : Objects sys objs (bs ++ held)) : Objects (sys.deleteAll bs) objs held where
  blocks := h.blocks.deleteAll
  bound := h.bound
  objects := h.objects
  beside o ho b hb := h.beside o ho b (List.mem_append_right _ hb)

theorem delete {b : Block} (h : Objects sys objs (b :: held)) : Objects (sys.deleteAll [b]) objs held :=
  deleteAll (show Objects sys objs ([b] ++ held) from h)

end Objects

end Storage
