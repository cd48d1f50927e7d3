import Mathlib.Tactic

/-!
# Resources that are obtained and released

A ledger lists the resources that were obtained and those that were released. Its owner
settles it if what it holds and what was released are together what was obtained, each once
(`Owned`): then what is held is live, what is released is released once, and an owner that
holds nothing any more has released everything exactly once (`Owned.settled`).
-/

/-- What was obtained and what was released, the last one first. -/
structure Ledger (α : Type*) where
  obtained : List α := []
  released : List α := []

namespace Ledger

variable {α : Type*} (l : Ledger α)

def acquire (a : α) : Ledger α := { l with obtained := a :: l.obtained }

def release (a : α) : Ledger α := { l with released := a :: l.released }

def releaseAll (as : List α) : Ledger α := { l with released := as.reverse ++ l.released }

/-- It was obtained and not released. -/
def Live (a : α) : Prop := a ∈ l.obtained ∧ a ∉ l.released

/-- Everything that was obtained was released exactly once, and nothing else was. -/
def Settled : Prop := l.obtained.Nodup ∧ l.released.Perm l.obtained

/-- Everything that was obtained is either held or released, once. -/
def Owned (held : List α) : Prop := l.obtained.Nodup ∧ (held ++ l.released).Perm l.obtained

variable {l} {held held' : List α} {a : α}

theorem owned_empty : Owned ({} : Ledger α) [] := ⟨.nil, .nil⟩

theorem Owned.perm (h : l.Owned held) (hp : held'.Perm held) : l.Owned held' :=
  ⟨h.1, (hp.append_right _).trans h.2⟩

theorem Owned.mem (h : l.Owned held) (ha : a ∈ held) : a ∈ l.obtained :=
  h.2.subset (List.mem_append_left _ ha)

theorem Owned.nodup (h : l.Owned held) : (held ++ l.released).Nodup := h.2.nodup_iff.mpr h.1

theorem Owned.live (h : l.Owned held) (ha : a ∈ held) : l.Live a :=
  ⟨h.mem ha, fun hr => (List.disjoint_of_nodup_append h.nodup) ha hr⟩

/-- What is live is held. -/
theorem Owned.mem_of_live (h : l.Owned held) (ha : l.Live a) : a ∈ held := by
  rcases List.mem_append.mp (h.2.symm.subset ha.1) with hm | hr
  · exact hm
  · exact absurd hr ha.2

theorem Owned.acquire (h : l.Owned held) (ha : a ∉ l.obtained) : (l.acquire a).Owned (a :: held) :=
  ⟨List.nodup_cons.mpr ⟨ha, h.1⟩, h.2.cons a⟩

theorem Owned.releaseAll {as : List α} (h : l.Owned (as ++ held)) : (l.releaseAll as).Owned held := by
  refine ⟨h.1, List.Perm.trans ?_ h.2⟩
  have hrev : (held ++ (as.reverse ++ l.released)).Perm (held ++ (as ++ l.released)) :=
    ((List.reverse_perm as).append_right _).append_left _
  have hswap : (held ++ (as ++ l.released)).Perm (as ++ held ++ l.released) := by
    rw [← List.append_assoc]
    exact List.perm_append_comm.append_right _
  exact hrev.trans hswap

theorem Owned.release (h : l.Owned (a :: held)) : (l.release a).Owned held :=
  Owned.releaseAll (show l.Owned ([a] ++ held) from h)

/-- **An owner that holds nothing has released everything exactly once.** -/
theorem Owned.settled (h : l.Owned []) : l.Settled := h

/-- Nothing is released twice. -/
theorem Settled.not_mem (h : (l.release a).Settled) : a ∉ l.released :=
  (List.nodup_cons.mp (h.2.nodup_iff.mpr h.1)).1

theorem Settled.disjoint {as : List α} (h : (l.releaseAll as).Settled) (ha : a ∈ as) :
    a ∉ l.released := fun hr =>
  List.disjoint_of_nodup_append (h.2.nodup_iff.mpr h.1) (List.mem_reverse.mpr ha) hr

end Ledger
