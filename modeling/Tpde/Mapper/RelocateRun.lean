import Mathlib
import Tpde.Mapper.RelocateStep

/-!
# All relocations

The loop of `ElfMapper::map` over the sections of the image. What one relocation
does is in `Tpde.Mapper.RelocateStep`; here the fields are still as they were
relocated when the loop ends, since sections, fields and the PLT/GOT area are
apart. If `map` returns true every field is right, unless a call or an access
through the GOT went wrong (`map_exact_iff`).
-/

namespace Tpde.Mapper

open Bytes Ranges

section
variable (arch : Arch) (obj : Object) (sym : ℕ → BitVec 64 × Bool)

/-- `P` holds for a relocation of the run, in the state before it. -/
def Ever (P : MapState → ℕ → Relocation → Prop) : MapState → List Task → Prop
  | _, [] => False
  | st, .copy addr data :: ts => Ever P (step arch obj sym st (.copy addr data)) ts
  | st, .reloc pc r :: ts => P st pc r ∨ Ever P (step arch obj sym st (.reloc pc r)) ts

/-- The relocation is refused. -/
def RefusedAt (st : MapState) (pc : ℕ) (r : Relocation) : Prop :=
  Refused st pc (obj.symIdx r.symbol) (sym (obj.symIdx r.symbol)).1 (r.addend.signExtend 64) arch
    (sym (obj.symIdx r.symbol)).2 r.type

/-- The relocation should be refused. -/
def UnservableAt (st : MapState) (pc : ℕ) (r : Relocation) : Prop :=
  Unservable st pc (obj.symIdx r.symbol) (sym (obj.symIdx r.symbol)).1 (r.addend.signExtend 64) arch r.type

/-- The relocation goes wrong. -/
def WrongAt (st : MapState) (pc : ℕ) (r : Relocation) : Prop :=
  Wrong st pc (obj.symIdx r.symbol) (sym (obj.symIdx r.symbol)).1 (r.addend.signExtend 64) arch r.type

/-- The relocation is applied in the state `fin`, to the instruction that `loaded` has there. -/
def AppliedAt (fin : MapState) (loaded : Mem) (pc : ℕ) (r : Relocation) : Prop :=
  Applied arch fin pc (obj.symIdx r.symbol) (word32 loaded pc) (sym (obj.symIdx r.symbol)).1
    (r.addend.signExtend 64)
    r.type

end

/-- The sections as they are copied, before they are relocated. -/
def copyAll (m : Mem) (ts : List Task) : Mem :=
  ts.foldl (fun m t => match t with
    | .copy addr data => m.store addr data
    | .reloc _ _ => m) m

section
variable (arch : Arch) (pageSize : ℕ) (obj : Object) (resolver : List UInt8 → BitVec 64) (mappedAddr : ℕ)

/-- What is asked of `map`: when it returns true all relocations of the image are applied, and it
does not return true when there is one that should be refused. -/
def MapExact : Prop :=
  (∀ mprotectOk st, map arch pageSize obj resolver (some mappedAddr) mprotectOk = some st →
    ∀ p ∈ obj.placed pageSize, ∀ sec, obj.getSection p.ref = some sec → ∀ r ∈ sec.relocs,
      AppliedAt arch obj (obj.symAddrs pageSize resolver mappedAddr) st
        (copyAll (fun _ => 0) (obj.tasks pageSize mappedAddr)) (mappedAddr + p.addr + r.offset) r) ∧
  (Ever arch obj (obj.symAddrs pageSize resolver mappedAddr)
      (UnservableAt arch obj (obj.symAddrs pageSize resolver mappedAddr)) (.init mappedAddr)
        (obj.tasks pageSize mappedAddr) →
    ∀ mprotectOk, map arch pageSize obj resolver (some mappedAddr) mprotectOk = none)

end

/-! ### Runs -/

/-- The bytes that a task is about. -/
def Task.footprint : Task → ℕ × ℕ
  | .copy addr data => (addr, data.length)
  | .reloc pc r => (pc, r.type.width)

/-- The task leaves the PLT/GOT area alone, and is for a symbol that there is. -/
def TaskOk (obj : Object) (base n : ℕ) (t : Task) : Prop :=
  (t.footprint.1 + t.footprint.2 ≤ base ∨ base + 16 * n ≤ t.footprint.1) ∧
    ∀ pc r, t = .reloc pc r → obj.symIdx r.symbol < n

/-- Nothing is written over a relocated field. -/
def Fresh (ts : List Task) : Prop := ts.Pairwise fun t t' => (∃ pc r, t = .reloc pc r) →
    Apart t.footprint t'.footprint

section
variable {arch : Arch} {obj : Object} {sym : ℕ → BitVec 64 × Bool} {base n : ℕ} {st : MapState}

theorem step_keeps (h : SlotsOk arch base n (fun i => (sym i).1) st) (hbase : 8 ∣ base) {t : Task}
    (ht : TaskOk obj base n t) :
    SlotsOk arch base n (fun i => (sym i).1) (step arch obj sym st t) ∧ Extends st (step arch obj sym st t) ∧
      ∀ x, x < base ∨ base + 16 * n ≤ x → x < t.footprint.1 ∨ t.footprint.1 + t.footprint.2 ≤ x →
        (step arch obj sym st t).mem x = st.mem x := by
  cases t with
  | copy addr data =>
    refine ⟨h.congr rfl rfl fun x h₁ h₂ => Mem.store_of_not_mem ?_, fun _ _ h => h,
      fun x _ hx => Mem.store_of_not_mem hx⟩
    have hle := h.next_le
    have hap : addr + data.length ≤ base ∨ base + 16 * n ≤ addr := ht.1
    omega
  | reloc pc r => exact resolveReloc_keeps h hbase (ht.2 pc r rfl) ht.1

/-- **A run** keeps the slots and what it is not about. -/
theorem relocate_keeps (hbase : 8 ∣ base) {ts : List Task} (hts : ∀ t ∈ ts, TaskOk obj base n t)
    (h : SlotsOk arch base n (fun i => (sym i).1) st) :
    SlotsOk arch base n (fun i => (sym i).1) (relocate arch obj sym st ts) ∧
      Extends st (relocate arch obj sym st ts) ∧
      ∀ x, x < base ∨ base + 16 * n ≤ x → (∀ t ∈ ts, x < t.footprint.1 ∨ t.footprint.1 + t.footprint.2 ≤ x) →
        (relocate arch obj sym st ts).mem x = st.mem x := by
  induction ts generalizing st with
  | nil => exact ⟨h, fun _ _ h => h, fun _ _ _ => rfl⟩
  | cons t ts ih =>
    obtain ⟨h₁, h₂, h₃⟩ := step_keeps h hbase (hts t List.mem_cons_self)
    obtain ⟨h₄, h₅, h₆⟩ := ih (fun t ht => hts t (List.mem_cons_of_mem _ ht)) h₁
    refine ⟨h₄, h₂.trans h₅, fun x hx hfoot => ?_⟩
    calc (relocate arch obj sym st (t :: ts)).mem x
        = (step arch obj sym st t).mem x := h₆ x hx fun t ht => hfoot t (List.mem_cons_of_mem _ ht)
      _ = st.mem x := h₃ x hx (hfoot t List.mem_cons_self)

/-- The run succeeds if nothing is refused. -/
theorem relocate_success {ts : List Task} :
    (relocate arch obj sym st ts).success = true ↔
      st.success = true ∧ ¬ Ever arch obj sym (RefusedAt arch obj sym) st ts := by
  induction ts generalizing st with
  | nil => simp [relocate, Ever]
  | cons t ts ih =>
    cases t with
    | copy addr data => exact ih
    | reloc pc r =>
      have hstep : (step arch obj sym st (.reloc pc r)).success = true ↔
          st.success = true ∧ ¬ RefusedAt arch obj sym st pc r := resolveReloc_success
      show (relocate arch obj sym (step arch obj sym st (.reloc pc r)) ts).success = true ↔ _
      rw [ih, hstep, Ever, not_or, and_assoc]

/-- What is asked of `P` in every step can be asked of what it implies. -/
theorem Ever.mono {P Q : MapState → ℕ → Relocation → Prop} (hPQ : ∀ st pc r, P st pc r → Q st pc r)
    {ts : List Task}
    (h : Ever arch obj sym P st ts) : Ever arch obj sym Q st ts := by
  induction ts generalizing st with
  | nil => exact h
  | cons t ts ih =>
    cases t with
    | copy addr data => exact ih h
    | reloc pc r =>
      cases h with
      | inl h => exact .inl (hPQ _ _ _ h)
      | inr h => exact .inr (ih h)

theorem Ever.or {P Q : MapState → ℕ → Relocation → Prop} {ts : List Task}
    (h : Ever arch obj sym (fun st pc r => P st pc r ∨ Q st pc r) st ts) :
    Ever arch obj sym P st ts ∨ Ever arch obj sym Q st ts := by
  induction ts generalizing st with
  | nil => exact h.elim
  | cons t ts ih =>
    cases t with
    | copy addr data => exact ih h
    | reloc pc r =>
      rcases h with (h | h) | h
      · exact .inl (.inl h)
      · exact .inr (.inl h)
      · exact (ih h).imp .inr .inr

theorem copyAll_congr {ts : List Task} {m m' : Mem} {x : ℕ} (h : m x = m' x) :
    copyAll m ts x = copyAll m' ts x := by
  induction ts generalizing m m' with
  | nil => exact h
  | cons t ts ih =>
    cases t with
    | copy addr data =>
      refine ih (show m.store addr data x = m'.store addr data x from ?_)
      simp only [Mem.store, h]
    | reloc pc r => exact ih h

theorem copyAll_of_apart {ts : List Task} {m : Mem} {x : ℕ}
    (h : ∀ t ∈ ts, x < t.footprint.1 ∨ t.footprint.1 + t.footprint.2 ≤ x) : copyAll m ts x = m x := by
  induction ts generalizing m with
  | nil => rfl
  | cons t ts ih =>
    have ih' := fun m => ih (m := m) fun t ht => h t (List.mem_cons_of_mem _ ht)
    cases t with
    | copy addr data => exact (ih' _).trans (Mem.store_of_not_mem (h _ List.mem_cons_self))
    | reloc pc r => exact ih' _

theorem four_le_width (type : RelocType) : 4 ≤ type.width := by
  cases type <;> simp [RelocType.width]

/-- **When nothing is refused**, something goes wrong in the run exactly if a relocation is not applied
at its end. -/
theorem ever_wrong_iff (hbase : 8 ∣ base) (hend : base + 16 * n ≤ 2 ^ 64) {loaded : Mem} {ts : List Task}
    (hts : ∀ t ∈ ts, TaskOk obj base n t) (hfresh : Fresh ts)
    (h : SlotsOk arch base n (fun i => (sym i).1) st)
    (hloaded : ∀ pc r, .reloc pc r ∈ ts → ∀ x, pc ≤ x → x < pc + 4 → loaded x = copyAll st.mem ts x)
    (hpass : ¬ Ever arch obj sym (RefusedAt arch obj sym) st ts) :
    Ever arch obj sym (WrongAt arch obj sym) st ts ↔
      ∃ pc r, .reloc pc r ∈ ts ∧ ¬ AppliedAt arch obj sym (relocate arch obj sym st ts) loaded pc r := by
  induction ts generalizing st with
  | nil => exact iff_of_false id fun ⟨_, _, hmem, _⟩ => by cases hmem
  | cons t ts ih =>
    have hts' : ∀ t ∈ ts, TaskOk obj base n t := fun t ht => hts t (List.mem_cons_of_mem _ ht)
    obtain ⟨hap, hfresh'⟩ := List.pairwise_cons.mp hfresh
    obtain ⟨hst₁, -, hmem₁⟩ := step_keeps h hbase (hts t List.mem_cons_self)
    cases t with
    | copy addr data =>
      have ih := ih hts' hfresh' hst₁ (fun pc r hr => hloaded pc r (List.mem_cons_of_mem _ hr)) hpass
      show Ever arch obj sym (WrongAt arch obj sym) (step arch obj sym st (.copy addr data)) ts ↔ _
      rw [ih]
      constructor
      · rintro ⟨pc, r, hr, hnot⟩
        exact ⟨pc, r, List.mem_cons_of_mem _ hr, hnot⟩
      · rintro ⟨pc, r, hr, hnot⟩
        cases hr with
        | tail _ hr => exact ⟨pc, r, hr, hnot⟩
    | reloc pc r =>
      have hap' : ∀ t' ∈ ts, Apart (pc, r.type.width) t'.footprint := fun t' ht' => hap t' ht' ⟨pc, r, rfl⟩
      have hpc : pc + r.type.width ≤ base ∨ base + 16 * n ≤ pc := (hts _ List.mem_cons_self).1
      have hwidth := four_le_width r.type
      obtain ⟨hpass₁, hpass'⟩ := not_or.mp hpass
      have hloaded' : ∀ pc' r', .reloc pc' r' ∈ ts → ∀ x, pc' ≤ x → x < pc' + 4 →
          loaded x = copyAll (step arch obj sym st (.reloc pc r)).mem ts x := by
        intro pc' r' hr' x h₁ h₂
        have hwidth' := four_le_width r'.type
        have hpc' : pc' + r'.type.width ≤ base ∨ base + 16 * n ≤ pc' := (hts' _ hr').1
        have hfield : pc + r.type.width ≤ pc' ∨ pc' + r'.type.width ≤ pc := hap' _ hr'
        refine (hloaded pc' r' (List.mem_cons_of_mem _ hr') x h₁ h₂).trans (copyAll_congr ?_)
        refine (hmem₁ x (by omega) ?_).symm
        show x < pc ∨ pc + r.type.width ≤ x
        omega
      have ih := ih hts' hfresh' hst₁ hloaded' hpass'
      obtain ⟨hfin, hext, hkeep⟩ := relocate_keeps hbase hts' hst₁
      have horig : word32 loaded pc = word32 st.mem pc := by
        refine word32_congr fun x h₁ h₂ => ?_
        refine (hloaded pc r List.mem_cons_self x h₁ h₂).trans
          (show copyAll st.mem ts x = st.mem x from copyAll_of_apart fun t' ht' => ?_)
        have hfield : pc + r.type.width ≤ t'.footprint.1 ∨ t'.footprint.1 + t'.footprint.2 ≤ pc := hap' _ ht'
        omega
      have hseen : Seen arch base n (fun i => (sym i).1) st pc r.type (obj.symIdx r.symbol)
          (sym (obj.symIdx r.symbol)).2 (r.addend.signExtend 64)
            (relocate arch obj sym st (.reloc pc r :: ts)) := by
        refine ⟨h, hbase, hend, (hts _ List.mem_cons_self).2 pc r rfl, hpc, hpass₁, hfin, hext,
          fun x h₁ h₂ => ?_⟩
        refine hkeep x (by omega) fun t' ht' => ?_
        have hfield : pc + r.type.width ≤ t'.footprint.1 ∨ t'.footprint.1 + t'.footprint.2 ≤ pc := hap' _ ht'
        omega
      have hhead : AppliedAt arch obj sym (relocate arch obj sym st (.reloc pc r :: ts)) loaded pc r ↔
          ¬ WrongAt arch obj sym st pc r := by
        rw [AppliedAt, horig]
        exact hseen.applied_iff
      show WrongAt arch obj sym st pc r ∨ Ever arch obj sym _ (step arch obj sym st (.reloc pc r)) ts ↔ _
      rw [ih]
      constructor
      · rintro (hwrong | ⟨pc', r', hr', hnot⟩)
        · exact ⟨pc, r, List.mem_cons_self, fun happ => hhead.mp happ hwrong⟩
        · exact ⟨pc', r', List.mem_cons_of_mem _ hr', hnot⟩
      · rintro ⟨pc', r', hr', hnot⟩
        cases hr' with
        | head => exact .inl (not_not.mp fun hwrong => hnot (hhead.mpr hwrong))
        | tail _ hr' => exact .inr ⟨pc', r', hr', hnot⟩

end

/-! ### The image -/

/-- What is asked of the sections that are mapped: an alignment, and relocations of symbols that there
are, for fields in the section that are apart. -/
structure Object.Ok (obj : Object) : Prop where
  align : ∀ sec, some sec ∈ obj.sections → sec.alloc = true → 0 < sec.align
  symbol : ∀ sec, some sec ∈ obj.sections → sec.alloc = true → ∀ r ∈ sec.relocs,
    obj.symIdx r.symbol < obj.symCount
  inside : ∀ sec, some sec ∈ obj.sections → sec.alloc = true → ∀ r ∈ sec.relocs,
    r.offset + r.type.width ≤ sec.size
  apart : ∀ sec, some sec ∈ obj.sections → sec.alloc = true →
    sec.relocs.Pairwise fun r r' => Apart (r.offset, r.type.width) (r'.offset, r'.type.width)

namespace Object

variable {obj : Object} {pageSize : ℕ}

/-- The end of the image. -/
def mappedSize (obj : Object) (pageSize : ℕ) : ℕ :=
  (image pageSize obj.ehFrame obj.symCount (obj.sections.map (Option.map ObjSection.toSection))).2.2

/-- A placed section is an allocated one of the object, which fits its place. -/
theorem getSection_of_placed {p : Placed} (hp : p ∈ obj.placed pageSize) :
    ∃ sec, obj.getSection p.ref = some sec ∧ some sec ∈ obj.sections ∧ sec.alloc = true ∧
      sec.size ≤ p.size := by
  obtain ⟨prev, himg, -⟩ := image_fst pageSize obj.ehFrame obj.symCount
    (obj.sections.map (Option.map ObjSection.toSection))
  rw [placed, himg] at hp
  have hrefs := @assignOffsets_refs pageSize obj.ehFrame
    (allocSections (obj.sections.map (Option.map ObjSection.toSection))) (obj.symCount * pltEntrySize) prev
  have hmem : (p.ref, p.sec) ∈ allocSections (obj.sections.map (Option.map ObjSection.toSection)) :=
    hrefs ▸ List.mem_map_of_mem hp
  obtain ⟨hget, halloc⟩ := mem_allocSections.mp hmem
  rw [List.getElem?_map] at hget
  obtain ⟨o, ho, hmap⟩ := Option.map_eq_some_iff.mp hget
  obtain ⟨sec, rfl, hsec⟩ := Option.map_eq_some_iff.mp hmap
  refine ⟨sec, by rw [getSection, ho]; rfl, List.mem_of_getElem? ho, hsec ▸ halloc, ?_⟩
  rw [assignOffsets_size _ _ _ p hp, ← hsec]
  split <;> omega

theorem placed_ordered (hobj : obj.Ok) (hps : 0 < pageSize) :
    Ordered (obj.symCount * pltEntrySize) (obj.mappedSize pageSize)
      ((obj.placed pageSize).map Placed.range) := by
  obtain ⟨prev, himg, hsize⟩ := image_fst pageSize obj.ehFrame obj.symCount
    (obj.sections.map (Option.map ObjSection.toSection))
  rw [placed, mappedSize, himg, hsize]
  refine assignOffsets_ordered hps _ _ _ fun s hs => ?_
  obtain ⟨hget, halloc⟩ := mem_allocSections.mp (show (s.1, s.2) ∈ _ from hs)
  rw [List.getElem?_map] at hget
  obtain ⟨o, ho, hmap⟩ := Option.map_eq_some_iff.mp hget
  obtain ⟨sec, rfl, hsec⟩ := Option.map_eq_some_iff.mp hmap
  rw [← hsec] at halloc ⊢
  exact hobj.align sec (List.mem_of_getElem? ho) halloc

theorem mem_tasks {mappedAddr : ℕ} {t : Task} :
    t ∈ obj.tasks pageSize mappedAddr ↔
      ∃ p ∈ obj.placed pageSize, ∃ sec, obj.getSection p.ref = some sec ∧
        t ∈ sectionTasks (mappedAddr + p.addr) sec := by
  rw [tasks, List.mem_flatMap]
  refine exists_congr fun p => and_congr_right fun _ => ?_
  cases obj.getSection p.ref with
  | none => simp
  | some sec => simp

theorem mem_sectionTasks {addr : ℕ} {sec : ObjSection} {t : Task} :
    t ∈ sectionTasks addr sec ↔
      (sec.nobits = false ∧ t = .copy addr sec.data) ∨ ∃ r ∈ sec.relocs, t = .reloc (addr + r.offset) r := by
  rw [sectionTasks, List.mem_append, List.mem_map]
  refine or_congr ?_ (exists_congr fun r => and_congr_right fun _ => eq_comm)
  cases sec.nobits with
  | false => simp
  | true => simp

/-- What is done for a section stays in it. -/
theorem footprint_of_mem (hobj : obj.Ok) {sec : ObjSection} (hsec : some sec ∈ obj.sections)
    (halloc : sec.alloc = true)
    {addr : ℕ} {t : Task} (ht : t ∈ sectionTasks addr sec) :
    addr ≤ t.footprint.1 ∧ t.footprint.1 + t.footprint.2 ≤ addr + sec.size := by
  rcases mem_sectionTasks.mp ht with ⟨hdata, rfl⟩ | ⟨r, hr, rfl⟩
  · refine ⟨le_rfl, ?_⟩
    show addr + sec.data.length ≤ addr + sec.size
    rw [sec.size_eq hdata]
  · refine ⟨Nat.le_add_right _ _, ?_⟩
    have hin := hobj.inside sec hsec halloc r hr
    show addr + r.offset + r.type.width ≤ addr + sec.size
    omega

theorem sectionTasks_fresh {sec : ObjSection} {addr : ℕ} (h : sec.relocs.Pairwise fun r r' =>
    Apart (r.offset, r.type.width) (r'.offset, r'.type.width)) : Fresh (sectionTasks addr sec) := by
  have hrelocs : Fresh (sec.relocs.map fun r => .reloc (addr + r.offset) r) := by
    refine List.pairwise_map.mpr (h.imp fun hap _ => ?_)
    exact hap.imp (fun h => by simp only [Task.footprint] at h ⊢; omega)
      (fun h => by simp only [Task.footprint] at h ⊢; omega)
  rw [sectionTasks]
  cases sec.nobits with
  | true => exact hrelocs
  | false => exact .cons (fun _ _ ⟨_, _, h⟩ => by cases h) hrelocs

theorem tasks_fresh (hobj : obj.Ok) (hps : 0 < pageSize) (mappedAddr : ℕ) :
    Fresh (obj.tasks pageSize mappedAddr) := by
  refine List.pairwise_flatMap.mpr ⟨fun p hp => ?_, ?_⟩
  · obtain ⟨sec, hget, hmem, halloc, -⟩ := getSection_of_placed hp
    rw [hget]
    exact sectionTasks_fresh (hobj.apart sec hmem halloc)
  · have hpair := List.pairwise_map.mp (placed_ordered hobj hps).pairwise
    refine hpair.imp_of_mem fun {p p'} hp hp' hap t ht t' ht' _ => ?_
    obtain ⟨sec, hget, hmem, halloc, hsize⟩ := getSection_of_placed hp
    obtain ⟨sec', hget', hmem', halloc', hsize'⟩ := getSection_of_placed hp'
    rw [hget] at ht
    rw [hget'] at ht'
    obtain ⟨h₁, h₂⟩ := footprint_of_mem hobj hmem halloc ht
    obtain ⟨h₃, h₄⟩ := footprint_of_mem hobj hmem' halloc' ht'
    exact hap.imp (fun h => by simp only [Placed.range] at h; omega)
      (fun h => by simp only [Placed.range] at h; omega)

theorem taskOk (hobj : obj.Ok) (hps : 0 < pageSize) {mappedAddr : ℕ} :
    ∀ t ∈ obj.tasks pageSize mappedAddr, TaskOk obj mappedAddr obj.symCount t := by
  intro t ht
  obtain ⟨p, hp, sec, hget, ht⟩ := mem_tasks.mp ht
  obtain ⟨sec', hget', hmem, halloc, hsize⟩ := getSection_of_placed hp
  obtain rfl : sec' = sec := Option.some.inj (hget'.symm.trans hget)
  obtain ⟨h₁, -⟩ := footprint_of_mem hobj hmem halloc ht
  have hlow : obj.symCount * 16 ≤ p.addr := ((placed_ordered hobj hps).bounds _ (List.mem_map_of_mem hp)).1
  refine ⟨.inr (by omega), ?_⟩
  rintro pc r rfl
  rcases mem_sectionTasks.mp ht with ⟨-, hcopy⟩ | ⟨r', hr', heq⟩
  · cases hcopy
  · cases heq
    exact hobj.symbol _ hmem halloc r hr'

end Object

/-! ### The result -/

theorem slotsOk_init (arch : Arch) (mappedAddr n : ℕ) (val : ℕ → BitVec 64) :
    SlotsOk arch mappedAddr n val (.init mappedAddr) := by
  refine ⟨?_, nofun, nofun, nofun⟩
  have hempty : ((Finset.range n).filter fun i => ((MapState.init mappedAddr).gotPltSlots i).isSome) = ∅ :=
    Finset.filter_false_of_mem fun i _ => Bool.false_ne_true
  rw [hempty]
  rfl

/-- **Relocation is exact or refused**, except for calls and accesses through the GOT that go wrong:
for an image that is mapped below the end of the address space, exactly if a relocation is refused or
none goes wrong. -/
theorem map_exact_iff {obj : Object} (hobj : obj.Ok) {pageSize mappedAddr : ℕ} (hps : 0 < pageSize)
    (haddr : 8 ∣ mappedAddr) (hend : mappedAddr + obj.mappedSize pageSize ≤ 2 ^ 64) (arch : Arch)
    (resolver : List UInt8 → BitVec 64) :
    MapExact arch pageSize obj resolver mappedAddr ↔
      Ever arch obj (obj.symAddrs pageSize resolver mappedAddr)
          (RefusedAt arch obj (obj.symAddrs pageSize resolver mappedAddr)) (.init mappedAddr)
          (obj.tasks pageSize mappedAddr) ∨
        ¬ Ever arch obj (obj.symAddrs pageSize resolver mappedAddr)
          (WrongAt arch obj (obj.symAddrs pageSize resolver mappedAddr)) (.init mappedAddr)
          (obj.tasks pageSize mappedAddr) := by
  have hsuccess := @relocate_success arch obj (obj.symAddrs pageSize resolver mappedAddr) (.init mappedAddr)
    (obj.tasks pageSize mappedAddr)
  have hmap {ok : Bool} {st : MapState} (h : map arch pageSize obj resolver (some mappedAddr) ok = some st) :
      (relocate arch obj (obj.symAddrs pageSize resolver mappedAddr) (.init mappedAddr)
        (obj.tasks pageSize mappedAddr)).success = true ∧
      relocate arch obj (obj.symAddrs pageSize resolver mappedAddr) (.init mappedAddr)
        (obj.tasks pageSize mappedAddr) = st := by
    simp only [map, Option.bind_some, Bool.and_eq_true, Option.ite_none_right_eq_some, Option.some.injEq] at h
    exact ⟨h.1.1, h.2⟩
  by_cases hrefused : Ever arch obj (obj.symAddrs pageSize resolver mappedAddr)
      (RefusedAt arch obj (obj.symAddrs pageSize resolver mappedAddr)) (.init mappedAddr)
        (obj.tasks pageSize mappedAddr)
  · -- `map` returns false
    refine iff_of_true ⟨fun ok st h => ?_, fun _ ok => ?_⟩ (.inl hrefused)
    · exact absurd hrefused (hsuccess.mp (hmap h).1).2
    · refine Option.eq_none_iff_forall_ne_some.mpr fun st h => ?_
      exact (hsuccess.mp (hmap h).1).2 hrefused
  · rw [or_iff_right hrefused]
    have hslots : mappedAddr + 16 * obj.symCount ≤ 2 ^ 64 := by
      have hle : obj.symCount * 16 ≤ obj.mappedSize pageSize := (Object.placed_ordered hobj hps).le
      omega
    have hwrong :=
      @ever_wrong_iff arch _ _ _ _ _ haddr hslots (copyAll (fun _ => 0) (obj.tasks pageSize mappedAddr)) _
      (Object.taskOk hobj hps) (Object.tasks_fresh hobj hps mappedAddr)
      (slotsOk_init arch mappedAddr obj.symCount fun i => (obj.symAddrs pageSize resolver mappedAddr i).1)
      (fun _ _ _ _ _ _ => rfl) hrefused
    have hok := hsuccess.mpr ⟨rfl, hrefused⟩
    have hrun : map arch pageSize obj resolver (some mappedAddr) true =
        some (relocate arch obj (obj.symAddrs pageSize resolver mappedAddr) (.init mappedAddr)
          (obj.tasks pageSize mappedAddr)) := by
      simp only [map, Option.bind_some, hok, Bool.and_self, if_true]
    constructor
    · rintro ⟨hexact, -⟩ hbad
      obtain ⟨pc, r, hr, hnot⟩ := hwrong.mp hbad
      obtain ⟨p, hp, sec, hget, ht⟩ := Object.mem_tasks.mp hr
      rcases Object.mem_sectionTasks.mp ht with ⟨-, hcopy⟩ | ⟨r', hr', heq⟩
      · cases hcopy
      · cases heq
        exact hnot (hexact true _ hrun p hp sec hget r hr')
    · intro hgood
      refine ⟨fun ok st h p hp sec hget r hr => ?_, fun hun => ?_⟩
      · obtain ⟨-, rfl⟩ := hmap h
        by_contra hnot
        refine hgood (hwrong.mpr ⟨_, r, Object.mem_tasks.mpr ⟨p, hp, sec, hget, ?_⟩, hnot⟩)
        exact Object.mem_sectionTasks.mpr (.inr ⟨r, hr, rfl⟩)
      · have hor := Ever.or (hun.mono fun st pc r h => h.refused_or_wrong
          (obj.symAddrs pageSize resolver mappedAddr (obj.symIdx r.symbol)).2)
        exact (hor.elim hrefused hgood).elim

/-- A text section with one call, and an alignment of 256 MiB. -/
def callSection : ObjSection where
  flags := 6
  nobits := false
  align := 2 ^ 28
  size := 4
  data := [0, 0, 0, 0x94]
  relocs := [⟨0, 2 ^ 31, .R_AARCH64_CALL26, 0⟩]
  size_eq _ := rfl

/-- The call is of an undefined function. -/
def farCall : Object := ⟨[some callSection], 1, [], [⟨[0x66], shnUndef, 0, 0⟩]⟩

theorem farCall_ok : farCall.Ok := by
  have hsec : ∀ sec, some sec ∈ farCall.sections → sec = callSection :=
    fun sec h => by simpa [farCall] using h
  refine ⟨fun sec h _ => ?_, fun sec h _ => ?_, fun sec h _ => ?_, fun sec h _ => ?_⟩ <;> rw [hsec sec h]
  · decide
  · decide
  · decide
  · exact List.pairwise_singleton _ _

theorem farCall_image : image 4096 1 1 [some callSection.toSection] =
    ([⟨0, callSection.toSection, 2 ^ 28, 4⟩], [(0, 6), (2 ^ 28 + 4, 0)], 2 ^ 28 + 4) := by
  have hsecs : allocSections [some callSection.toSection] = [(0, callSection.toSection)] :=
    List.mergeSort_singleton _
  rw [image, hsecs]
  rfl

theorem farCall_tasks : farCall.tasks 4096 0x10000000 =
    [.copy 0x20000000 [0, 0, 0, 0x94], .reloc 0x20000000 ⟨0, 2 ^ 31, .R_AARCH64_CALL26, 0⟩] := by
  rw [Object.tasks, Object.placed]
  erw [farCall_image]
  rfl

/-- The call of a function nearby is relocated. -/
theorem map_exact_farCall : MapExact .aarch64 4096 farCall (fun _ => 0x20000100) 0x10000000 := by
  refine (map_exact_iff farCall_ok (by decide) (by decide) ?_ _ _).mpr (.inr ?_)
  · erw [Object.mappedSize, farCall_image]
    decide
  · rw [farCall_tasks]
    rintro (⟨hshort, -⟩ | h)
    · exact hshort ⟨by decide +kernel, by decide +kernel⟩
    · exact h

/-- The call goes through a PLT slot 256 MiB away, which a branch does not reach; `map` returns true. -/
theorem map_farCall : ¬ MapExact .aarch64 4096 farCall (fun _ => 2 ^ 40) 0x10000000 := by
  rintro ⟨h, -⟩
  have hplaced : farCall.placed 4096 = [⟨0, callSection.toSection, 2 ^ 28, 4⟩] := by
    erw [Object.placed, farCall_image]
  have hsuccess :
    (relocate .aarch64 farCall (farCall.symAddrs 4096 (fun _ => 2 ^ 40) 0x10000000) (.init 0x10000000)
      (farCall.tasks 4096 0x10000000)).success = true := by
    rw [farCall_tasks]
    decide +kernel
  have hrun : map .aarch64 4096 farCall (fun _ => 2 ^ 40) (some 0x10000000) true = some
      (relocate .aarch64 farCall (farCall.symAddrs 4096 (fun _ => 2 ^ 40) 0x10000000) (.init 0x10000000)
        (farCall.tasks 4096 0x10000000)) := by
    simp only [map, Option.bind_some, hsuccess, Bool.and_self, if_true]
  have happ := h true _ hrun _ (hplaced ▸ List.mem_cons_self) callSection rfl _ List.mem_cons_self
  rw [farCall_tasks] at happ
  obtain ⟨-, hdirect | ⟨slot, ⟨hslot, -⟩, hto⟩⟩ := happ
  · exact absurd hdirect (by decide +kernel)
  · obtain rfl : 0x10000000 = slot := Option.some.inj hslot
    exact absurd hto (by decide +kernel)

end Tpde.Mapper
