import Tpde.Analyzer.LiveInterval

/-!
# The interval of a value, whatever the order of its visits

What the visits of `compute_liveness` come to over any forest of loops whose ranges are contiguous
(`LoopForest`): the lowest common loop is the lowest loop around all visited blocks, and the interval is
the hull of their items in it, where the item of a block is the block itself or the loop right
inside the common loop that it is in (`Hull`). The hull depends on the set of visited blocks only.

A visit of a deeper loop that is laid out before the lowest common loop is taken for one inside it.
`visits_hull_iff` says that nothing else goes wrong, and that this always does.
-/

namespace Tpde.Analyzer

open Relation

/-- Loops whose ranges are contiguous, over the blocks `0, …, n - 1` in the order of the layout: a block
is in the range of a loop if and only if its innermost loop `m` is that loop or one inside it. -/
structure LoopForest (l : LoopTable) (m : ℕ → ℕ) (n : ℕ) : Prop extends l.IsTree where
  map_lt : ∀ x < n, m x < l.size
  range : ∀ L < l.size, l.beginOf L < l.endIdx L ∧ l.endIdx L ≤ n
  mem_range : ∀ L < l.size, ∀ x < n, (l.beginOf L ≤ x ∧ x < l.endIdx L) ↔ l.Under (m x) L

/-- `lo` and `hi` are the first and the last block of the item of `x` in loop `L`: of `x` itself where
`L` is its innermost loop, of the loop right inside `L` that it is in otherwise. -/
def ItemRange (l : LoopTable) (m : ℕ → ℕ) (L x lo hi : ℕ) : Prop :=
  (m x = L ∧ lo = x ∧ hi = x) ∨
    (m x ≠ L ∧ ∃ c, l.Under (m x) c ∧ c ≠ 0 ∧ l.parent c = L ∧ lo = l.beginOf c ∧ hi = l.endIdx c - 1)

/-- `L` is the lowest loop around the blocks `us`. -/
structure LowestAround (l : LoopTable) (m : ℕ → ℕ) (L : ℕ) (us : List ℕ) : Prop where
  around : ∀ x ∈ us, l.Under (m x) L
  least : ∀ D, (∀ x ∈ us, l.Under (m x) D) → l.Under L D

/-- The interval in closed form. -/
structure Hull (l : LoopTable) (m : ℕ → ℕ) (us : List ℕ) (i : LivenessInfo) : Prop where
  common : LowestAround l m i.lowestCommonLoop us
  bounds : ∀ x ∈ us, ∀ lo hi, ItemRange l m i.lowestCommonLoop x lo hi → i.first ≤ lo ∧ hi ≤ i.last
  first : ∃ x ∈ us, ∃ hi, ItemRange l m i.lowestCommonLoop x i.first hi
  last : ∃ x ∈ us, ∃ lo, ItemRange l m i.lowestCommonLoop x lo i.last
  refCount : i.refCount = us.length

/-- No visit is to a block whose innermost loop is deeper than the lowest loop around the blocks visited
before, and begins before it. -/
def StraightVisits (l : LoopTable) (m : ℕ → ℕ) (us : List ℕ) : Prop :=
  ∀ pre u post, us = pre ++ u :: post → pre ≠ [] → ∀ L, LowestAround l m L pre →
    l.level L < l.level (m u) → l.beginOf L ≤ l.beginOf (m u)

variable {l : LoopTable} {m : ℕ → ℕ} {n : ℕ}

namespace LoopForest

variable (hF : LoopForest l m n)
include hF

/-- The range of a loop lies in that of a loop around it. -/
theorem nested {a b : ℕ} (h : l.Under a b) (ha : a < l.size) : l.beginOf b ≤ l.beginOf a ∧
    l.endIdx a ≤ l.endIdx b := by
  obtain ⟨hne, hle⟩ := hF.range a ha
  have hb := hF.under_lt h ha
  have h1 := (hF.mem_range a ha (l.beginOf a) (by omega)).mp ⟨le_rfl, hne⟩
  have h2 := (hF.mem_range a ha (l.endIdx a - 1) (by omega)).mp ⟨by omega, by omega⟩
  have h1' := (hF.mem_range b hb _ (by omega)).mpr (h1.trans h)
  have h2' := (hF.mem_range b hb _ (by omega)).mpr (h2.trans h)
  omega

theorem lowest_unique {us : List ℕ} {L L' : ℕ} (hne : us ≠ []) (hus : ∀ x ∈ us, x < n)
    (h : LowestAround l m L us)
    (h' : LowestAround l m L' us) : L = L' := by
  obtain ⟨x, hx⟩ := List.exists_mem_of_ne_nil us hne
  exact hF.antisymm (hF.under_lt (h.around x hx) (hF.map_lt x (hus x hx))) (h.least L' h'.around)
    (h'.least L h.around)

/-- A block has one item in a loop. -/
theorem itemRange_unique {L x lo hi lo' hi' : ℕ} (hx : x < n) (h : ItemRange l m L x lo hi)
    (h' : ItemRange l m L x lo' hi') : lo = lo' ∧ hi = hi' := by
  rcases h with ⟨hm, rfl, rfl⟩ | ⟨hm, c, hc, hc0, hp, rfl, rfl⟩
  · rcases h' with ⟨-, rfl, rfl⟩ | ⟨hm', -⟩
    · exact ⟨rfl, rfl⟩
    · exact absurd hm hm'
  · rcases h' with ⟨hm', -⟩ | ⟨-, c', hc', hc0', hp', rfl, rfl⟩
    · exact absurd hm' hm
    · obtain rfl := hF.child_unique (hF.map_lt x hx) hc hc' hc0 hc0' (hp.trans hp'.symm)
      exact ⟨rfl, rfl⟩

/-- The items of a loop lie in its range. -/
theorem itemRange_within {L x lo hi : ℕ} (hx : x < n) (hL : l.Under (m x) L) (h : ItemRange l m L x lo hi) :
    l.beginOf L ≤ lo ∧ hi < l.endIdx L := by
  have hm := hF.map_lt x hx
  rcases h with ⟨-, rfl, rfl⟩ | ⟨-, c, hc, hc0, rfl, rfl, rfl⟩
  · exact (hF.mem_range L (hF.under_lt hL hm) _ hx).mpr hL
  · have hcs := hF.under_lt hc hm
    have := hF.nested (.parent hc0) hcs
    have := (hF.range c hcs).1
    omega

/-- The hull depends on what is visited only, and not on the order. -/
theorem hull_perm {us us' : List ℕ} {i i' : LivenessInfo} (hne : us ≠ []) (hus : ∀ x ∈ us, x < n)
    (hp : us.Perm us')
    (h : Hull l m us i) (h' : Hull l m us' i') :
    i.lowestCommonLoop = i'.lowestCommonLoop ∧ i.first = i'.first ∧ i.last = i'.last ∧
      i.refCount = i'.refCount := by
  have hcommon : LowestAround l m i'.lowestCommonLoop us :=
    ⟨fun x hx => h'.common.around x (hp.mem_iff.mp hx),
      fun D hD => h'.common.least D fun x hx => hD x (hp.mem_iff.mpr hx)⟩
  have hL := hF.lowest_unique hne hus h.common hcommon
  obtain ⟨x, hx, hi, hxr⟩ := h.first
  obtain ⟨x', hx', hi', hxr'⟩ := h'.first
  obtain ⟨y, hy, lo, hyr⟩ := h.last
  obtain ⟨y', hy', lo', hyr'⟩ := h'.last
  have h1 := (h'.bounds x (hp.mem_iff.mp hx) _ _ (hL ▸ hxr)).1
  have h2 := (h.bounds x' (hp.mem_iff.mpr hx') _ _ (hL ▸ hxr')).1
  have h3 := (h'.bounds y (hp.mem_iff.mp hy) _ _ (hL ▸ hyr)).2
  have h4 := (h.bounds y' (hp.mem_iff.mpr hy') _ _ (hL ▸ hyr')).2
  refine ⟨hL, le_antisymm h2 h1, le_antisymm h3 h4, ?_⟩
  rw [h.refCount, h'.refCount, hp.length_eq]

/-! ### The visits -/

section
variable {us : List ℕ} {u epoch : ℕ} {i : LivenessInfo}

theorem hull_start (hu : u < n) (he : i.epoch ≠ epoch) : Hull l m [u] (visitInfo l m epoch i u) := by
  have heq : visitInfo l m epoch i u = ⟨u, u, 1, m u, false, epoch⟩ := by
    unfold visitInfo
    rw [if_pos he]
  rw [heq]
  have hself : ItemRange l m (m u) u u u := .inl ⟨rfl, rfl, rfl⟩
  refine ⟨⟨fun x hx => List.mem_singleton.mp hx ▸ .refl _, fun D hD => hD u List.mem_cons_self⟩,
    fun x hx lo hi hr => ?_,
    ⟨u, List.mem_cons_self, u, hself⟩, ⟨u, List.mem_cons_self, u, hself⟩, rfl⟩
  obtain rfl := List.mem_singleton.mp hx
  obtain ⟨rfl, rfl⟩ := hF.itemRange_unique hu hr hself
  exact ⟨le_rfl, le_rfl⟩

/-- An interval is extended by the item of a block in the lowest common loop. -/
theorem hull_inside {i' : LivenessInfo} {lo hi : ℕ} (h : Hull l m us i) (hu : u < n)
    (hL : l.Under (m u) i.lowestCommonLoop) (hr : ItemRange l m i.lowestCommonLoop u lo hi)
    (hcommon : i'.lowestCommonLoop = i.lowestCommonLoop) (hfirst : i'.first = min i.first lo)
    (hlast : i'.last = max i.last hi) (hcount : i'.refCount = i.refCount + 1) : Hull l m (us ++ [u]) i' where
  common := by
    rw [hcommon]
    refine ⟨fun x hx => ?_, fun D hD => h.common.least D fun x hx => hD x (List.mem_append_left _ hx)⟩
    rcases List.mem_append.mp hx with hx | hx
    · exact h.common.around x hx
    · exact List.mem_singleton.mp hx ▸ hL
  bounds x hx lo' hi' hr' := by
    rw [hcommon] at hr'
    rcases List.mem_append.mp hx with hx | hx
    · have := h.bounds x hx lo' hi' hr'
      omega
    · obtain rfl := List.mem_singleton.mp hx
      obtain ⟨rfl, rfl⟩ := hF.itemRange_unique hu hr' hr
      omega
  first := by
    rw [hcommon]
    rcases Nat.le_total i.first lo with hle | hle
    · obtain ⟨x, hx, hi', hxr⟩ := h.first
      exact ⟨x, List.mem_append_left _ hx, hi', by rwa [hfirst, min_eq_left hle]⟩
    · exact ⟨u, by simp, hi, by rwa [hfirst, min_eq_right hle]⟩
  last := by
    rw [hcommon]
    rcases Nat.le_total hi i.last with hle | hle
    · obtain ⟨x, hx, lo', hxr⟩ := h.last
      exact ⟨x, List.mem_append_left _ hx, lo', by rwa [hlast, max_eq_left hle]⟩
    · exact ⟨u, by simp, lo, by rwa [hlast, max_eq_right hle]⟩
  refCount := by rw [hcount, h.refCount, List.length_append, List.length_singleton]

/-- The hull in a loop `N` around the lowest common one: what has been visited is all in one item of it. -/
theorem hull_raise {N p : ℕ} (h : Hull l m us i) (hus : ∀ x ∈ us, x < n)
    (hp : l.Under i.lowestCommonLoop p) (hp0 : p ≠ 0) (hpN : l.parent p = N) :
    (∀ x ∈ us, ItemRange l m N x (l.beginOf p) (l.endIdx p - 1)) ∧
      l.beginOf p ≤ i.first ∧ i.last ≤ l.endIdx p - 1 := by
  obtain ⟨x, hx, hi, hxr⟩ := h.first
  obtain ⟨y, hy, lo, hyr⟩ := h.last
  have hLs := hF.under_lt (h.common.around x hx) (hF.map_lt x (hus x hx))
  have hnest := hF.nested hp hLs
  have h1 := hF.itemRange_within (hus x hx) (h.common.around x hx) hxr
  have h2 := hF.itemRange_within (hus y hy) (h.common.around y hy) hyr
  refine ⟨fun z hz => .inr ⟨fun heq => ?_, p, (h.common.around z hz).trans hp, hp0, hpN, rfl,
    rfl⟩, by omega, by omega⟩
  -- the loop of a visited block is inside `p`, and so below `N`
  have hzp := (h.common.around z hz).trans hp
  have h3 := hF.parent_lt p (hF.under_lt hp hLs) hp0
  have h4 := hF.under_le hzp (hF.map_lt z (hus z hz))
  omega

/-- A block outside raises the lowest common loop to `N` and adds two items of it. -/
theorem hull_outside {i' : LivenessInfo} {N p lo hi : ℕ} (h : Hull l m us i) (hne : us ≠ [])
    (hus : ∀ x ∈ us, x < n) (hu : u < n) (hp : l.Under i.lowestCommonLoop p) (hp0 : p ≠ 0)
    (hpN : l.parent p = N)
    (huN : l.Under (m u) N) (hleast : ∀ D, l.Under i.lowestCommonLoop D → l.Under (m u) D → l.Under N D)
    (hr : ItemRange l m N u lo hi) (hcommon : i'.lowestCommonLoop = N)
    (hfirst : i'.first = min (min i.first (l.beginOf p)) lo)
    (hlast : i'.last = max (max i.last (l.endIdx p - 1)) hi) (hcount : i'.refCount = i.refCount + 1) :
    Hull l m (us ++ [u]) i' := by
  obtain ⟨hitem, hlo, hhi⟩ := hF.hull_raise h hus hp hp0 hpN
  rw [min_eq_right hlo] at hfirst
  rw [max_eq_right hhi] at hlast
  obtain ⟨z, hz⟩ := List.exists_mem_of_ne_nil us hne
  constructor
  · rw [hcommon]
    refine ⟨fun x hx => ?_, fun D hD => ?_⟩
    · rcases List.mem_append.mp hx with hx | hx
      · exact ((h.common.around x hx).trans hp).trans (hpN ▸ .parent hp0)
      · exact List.mem_singleton.mp hx ▸ huN
    · exact hleast D (h.common.least D fun x hx => hD x (List.mem_append_left _ hx)) (hD u (by simp))
  · intro x hx lo' hi' hr'
    rw [hcommon] at hr'
    rcases List.mem_append.mp hx with hx | hx
    · obtain ⟨rfl, rfl⟩ := hF.itemRange_unique (hus x hx) hr' (hitem x hx)
      omega
    · obtain rfl := List.mem_singleton.mp hx
      obtain ⟨rfl, rfl⟩ := hF.itemRange_unique hu hr' hr
      omega
  · rw [hcommon]
    rcases Nat.le_total (l.beginOf p) lo with hle | hle
    · exact ⟨z, List.mem_append_left _ hz, _, by rw [hfirst, min_eq_left hle]; exact hitem z hz⟩
    · exact ⟨u, by simp, hi, by rwa [hfirst, min_eq_right hle]⟩
  · rw [hcommon]
    rcases Nat.le_total hi (l.endIdx p - 1) with hle | hle
    · exact ⟨z, List.mem_append_left _ hz, _, by rw [hlast, max_eq_left hle]; exact hitem z hz⟩
    · exact ⟨u, by simp, lo, by rwa [hlast, max_eq_right hle]⟩
  · rw [hcount, h.refCount, List.length_append, List.length_singleton]

/-- A visit inside the lowest common loop extends the interval by the item of the block. -/
theorem visit_inside (h : Hull l m us i) (hu : u < n) (he : i.epoch = epoch)
    (hL : l.Under (m u) i.lowestCommonLoop) : Hull l m (us ++ [u]) (visitInfo l m epoch i u) := by
  have hm := hF.map_lt u hu
  unfold visitInfo
  rw [if_neg (not_not.mpr he)]
  dsimp only [LivenessInfo.addRef]
  by_cases heq : i.lowestCommonLoop = m u
  · rw [if_pos heq]
    exact hF.hull_inside h hu hL (.inl ⟨heq.symm, rfl, rfl⟩) rfl rfl rfl rfl
  · obtain ⟨e, htarget, hce, he0, hep⟩ := hF.targetLoop_spec hm hL (Ne.symm heq)
    have hlt := (hF.level_of_under hL hm).resolve_left (Ne.symm heq)
    have hbegin : l.beginOf (m u) < l.endIdx i.lowestCommonLoop := by
      have := hF.nested hL hm
      have := hF.range _ hm
      omega
    rw [if_neg heq, if_pos ⟨hlt, hbegin⟩, htarget]
    exact hF.hull_inside h hu hL (.inr ⟨Ne.symm heq, e, hce, he0, hep, rfl, rfl⟩) rfl rfl rfl rfl

/-- A visit outside raises the lowest common loop, unless the block's loop is deeper and begins before it. -/
theorem visit_outside (h : Hull l m us i) (hne : us ≠ []) (hus : ∀ x ∈ us, x < n) (hu : u < n)
    (he : i.epoch = epoch)
    (hL : ¬ l.Under (m u) i.lowestCommonLoop)
    (hs : l.level i.lowestCommonLoop < l.level (m u) → l.beginOf i.lowestCommonLoop ≤ l.beginOf (m u)) :
    Hull l m (us ++ [u]) (visitInfo l m epoch i u) := by
  have hm := hF.map_lt u hu
  obtain ⟨z, hz⟩ := List.exists_mem_of_ne_nil us hne
  have hLs := hF.under_lt (h.common.around z hz) (hF.map_lt z (hus z hz))
  have hneq : i.lowestCommonLoop ≠ m u := fun heq => hL (heq ▸ .refl _)
  have htest :
    ¬ (l.level i.lowestCommonLoop < l.level (m u) ∧ l.beginOf (m u) < l.endIdx i.lowestCommonLoop) := by
    rintro ⟨hlt, hbegin⟩
    have hle := hs hlt
    have hr := hF.range _ hm
    -- the first block of the block's loop is in both loops, and the deeper one is inside
    have h1 := (hF.mem_range _ hm (l.beginOf (m u)) (by omega)).mp ⟨le_rfl, hr.1⟩
    have h2 := (hF.mem_range _ hLs (l.beginOf (m u)) (by omega)).mp ⟨hle, hbegin⟩
    rcases h1.total h2 with h | h
    · exact hL h
    · rcases hF.level_of_under h hLs with heq | hlt'
      · exact hneq heq
      · omega
  obtain ⟨hright, hleast, ⟨hp, hp0, hpp⟩, hrhs⟩ := commonLoop_meet hF.toIsTree hLs hm hL
  unfold visitInfo
  rw [if_neg (not_not.mpr he)]
  dsimp only [LivenessInfo.addRef]
  rw [if_neg hneq, if_neg htest]
  split_ifs with hlhs
  · exact hF.hull_outside h hne hus hu hp hp0 hpp hright hleast (.inl ⟨hlhs.symm, rfl, rfl⟩) rfl rfl rfl rfl
  · obtain ⟨hq, hq0, hqp⟩ := hrhs hlhs
    exact hF.hull_outside h hne hus hu hp hp0 hpp hright hleast
      (.inr ⟨fun heq => hlhs heq.symm, _, hq, hq0, hqp, rfl, rfl⟩) rfl rfl rfl rfl

omit hF in
/-- A visit of a deeper loop that begins before the lowest common loop leaves that loop as it is. -/
theorem visit_before (he : i.epoch = epoch) (hL : l.beginOf i.lowestCommonLoop < l.endIdx i.lowestCommonLoop)
    (hlt : l.level i.lowestCommonLoop < l.level (m u)) (hb : l.beginOf (m u) < l.beginOf i.lowestCommonLoop) :
    (visitInfo l m epoch i u).lowestCommonLoop = i.lowestCommonLoop := by
  have hneq : i.lowestCommonLoop ≠ m u := fun heq => by
    rw [heq] at hlt
    exact lt_irrefl _ hlt
  unfold visitInfo
  rw [if_neg (not_not.mpr he)]
  dsimp only [LivenessInfo.addRef]
  rw [if_neg hneq, if_pos ⟨hlt, by omega⟩]
  rfl

end

end LoopForest

theorem epoch_visits (epoch : ℕ) {us : List ℕ} (hne : us ≠ []) (i : LivenessInfo) :
    (us.foldl (visitInfo l m epoch) i).epoch = epoch := by
  obtain ⟨vs, v, rfl⟩ := (List.eq_nil_or_concat us).resolve_left hne
  rw [List.concat_eq_append, List.foldl_append]
  exact epoch_visitInfo _ _ _ _ _

/-- Straight visits end with the hull. -/
theorem visits_hull (hF : LoopForest l m n) {epoch : ℕ} {i : LivenessInfo} (he : i.epoch ≠ epoch)
    {us : List ℕ}
    (hne : us ≠ []) (hus : ∀ x ∈ us, x < n) (hs : StraightVisits l m us) :
    Hull l m us (us.foldl (visitInfo l m epoch) i) := by
  induction us using List.reverseRecOn with
  | nil => exact absurd rfl hne
  | append_singleton us u ih =>
    have hu := hus u (by simp)
    rw [List.foldl_append, List.foldl_cons, List.foldl_nil]
    by_cases hnil : us = []
    · subst hnil
      exact hF.hull_start hu he
    · have hus' : ∀ x ∈ us, x < n := fun x hx => hus x (List.mem_append_left _ hx)
      have h := ih hnil hus' fun pre v post heq => hs pre v (post ++ [u]) (by simp [heq])
      by_cases hL : l.Under (m u) (us.foldl (visitInfo l m epoch) i).lowestCommonLoop
      · exact hF.visit_inside h hu (epoch_visits epoch hnil i) hL
      · exact hF.visit_outside h hnil hus' hu (epoch_visits epoch hnil i) hL (hs us u [] rfl hnil _ h.common)

/-- **The interval is the hull of what is visited**, after each visit of a sequence, if and only if no visit
is to a block whose innermost loop is deeper than the lowest loop around the blocks visited before, and begins
before it; so it does not depend on the order of visits none of which is. -/
theorem visits_hull_iff (hF : LoopForest l m n) {epoch : ℕ} {i : LivenessInfo} (he : i.epoch ≠ epoch)
    {us : List ℕ}
    (hus : ∀ x ∈ us, x < n) :
    ((∀ pre, pre <+: us → pre ≠ [] → Hull l m pre (pre.foldl (visitInfo l m epoch) i)) ↔
      StraightVisits l m us) ∧
    ∀ us', us.Perm us' → us ≠ [] → StraightVisits l m us → StraightVisits l m us' →
      let r := us.foldl (visitInfo l m epoch) i
      let r' := us'.foldl (visitInfo l m epoch) i
      r.lowestCommonLoop = r'.lowestCommonLoop ∧ r.first = r'.first ∧ r.last = r'.last ∧
        r.refCount = r'.refCount := by
  refine ⟨⟨fun h pre u post heq hne L hL hlt => ?_, fun hs pre hpre hne => ?_⟩, fun us' hp hne hs hs' => ?_⟩
  · by_contra hb
    have hpre := h pre (heq ▸ List.prefix_append _ _) hne
    have hall := h (pre ++ [u]) (by rw [heq]; exact ⟨post, by simp⟩) (by simp)
    have hpren : ∀ x ∈ pre, x < n := fun x hx => hus x (heq ▸ List.mem_append_left _ hx)
    obtain rfl := hF.lowest_unique hne hpren hL hpre.common
    obtain ⟨z, hz⟩ := List.exists_mem_of_ne_nil pre hne
    have hLs := hF.under_lt (hL.around z hz) (hF.map_lt z (hpren z hz))
    have hkeep :=
      LoopForest.visit_before (epoch_visits epoch hne i) (hF.range _ hLs).1 hlt (Nat.lt_of_not_le hb)
    -- the block would have to be in the loop, but its loop begins before it
    have hunder := hall.common.around u (by simp)
    rw [List.foldl_append, List.foldl_cons, List.foldl_nil, hkeep] at hunder
    have hun : u < n := hus u (heq ▸ by simp)
    exact hb (hF.nested hunder (hF.map_lt u hun)).1
  · obtain ⟨post, rfl⟩ := hpre
    refine visits_hull hF he hne (fun x hx => hus x (List.mem_append_left _ hx)) fun p u q heq => ?_
    exact hs p u (q ++ post) (by simp [heq])
  · exact hF.hull_perm hne hus hp (visits_hull hF he hne hus hs)
      (visits_hull hF he (fun hnil => hne (List.perm_nil.mp (hnil ▸ hp)))
        (fun x hx => hus x (hp.mem_iff.mpr hx)) hs')

/-! ### The loops of a layout -/

/-- The layout that the analyzer builds has such loops. -/
theorem loopForest_buildBlockLayout {B : Type} [DecidableEq B] (A : Cfg B) :
    LoopForest (buildBlockLayout A).loops (buildBlockLayout A).blockLoopMap
      (buildBlockLayout A).blockLayout.length := by
  have hC := (buildBlockLayout_contiguous A).1
  have hrange : ∀ L < (buildBlockLayout A).loops.size, ∃ b, (buildBlockLayout A).loops.beginOf L = b ∧
      b < (buildBlockLayout A).loops.endIdx L ∧
      (buildBlockLayout A).loops.endIdx L ≤ (buildBlockLayout A).blockLayout.length ∧
      ∀ p < (buildBlockLayout A).blockLayout.length, (b ≤ p ∧ p < (buildBlockLayout A).loops.endIdx L) ↔
        (buildBlockLayout A).Under ((buildBlockLayout A).blockLoopMap p) L := by
    intro L hL
    obtain ⟨b, hb, hend, hpos, hle, hiff⟩ := loop_range_iff hL
    exact ⟨b, by simp [LoopTable.beginOf, hb], by omega, hle, hiff⟩
  refine ⟨⟨hC.root.1, hC.root.2.2, fun L hL h0 => (hC.parent L hL h0).1,
    fun L hL h0 => (hC.parent L hL h0).2⟩,
    hC.blockLoopMap, fun L hL => ?_, fun L hL x hx => ?_⟩
  · obtain ⟨b, rfl, hlt, hle, -⟩ := hrange L hL
    exact ⟨hlt, hle⟩
  · obtain ⟨b, rfl, -, -, hiff⟩ := hrange L hL
    exact hiff x hx

/-- The loops of `deepBefore`. -/
def deepLoops : LoopTable := (buildBlockLayout deepBefore.toCfg).loops

/-- The innermost loops of the blocks of `deepBefore`. -/
def deepLoopMap : ℕ → ℕ := (buildBlockLayout deepBefore.toCfg).blockLoopMap

theorem loopForest_deep : LoopForest deepLoops deepLoopMap 7 := by
  have h := loopForest_buildBlockLayout deepBefore.toCfg
  rwa [show (buildBlockLayout deepBefore.toCfg).blockLayout.length = 7 by decide +kernel] at h

/-- Block 4 first and block 3, in a deeper loop before it, second: the interval is not the hull, and not
the one of the other order. -/
theorem visits_order_matters : LoopForest deepLoops deepLoopMap 7 ∧
    ¬ Hull deepLoops deepLoopMap [4, 3] ([4, 3].foldl (visitInfo deepLoops deepLoopMap 1) .empty) ∧
    ([4, 3].foldl (visitInfo deepLoops deepLoopMap 1) .empty).first ≠
      ([3, 4].foldl (visitInfo deepLoops deepLoopMap 1) .empty).first := by
  refine ⟨loopForest_deep, fun h => ?_, by decide +kernel⟩
  have hm : deepLoopMap 3 = 3 := by decide +kernel
  have hL : ([4, 3].foldl (visitInfo deepLoops deepLoopMap 1) .empty).lowestCommonLoop = 4 := by
    decide +kernel
  have hu := h.common.around 3 (by decide)
  rw [hm, hL] at hu
  exact absurd (loopForest_deep.under_le hu (by decide +kernel)) (by decide)

/-- At the other order of these two visits, which is straight, and the hull after each. -/
theorem visits_hull_iff_deep : (∀ pre, pre <+: [3, 4] → pre ≠ [] →
    Hull deepLoops deepLoopMap pre (pre.foldl (visitInfo deepLoops deepLoopMap 1) .empty)) ↔
      StraightVisits deepLoops deepLoopMap [3, 4] :=
  (visits_hull_iff loopForest_deep (show LivenessInfo.empty.epoch ≠ 1 by decide) (by decide)).1

end Tpde.Analyzer
