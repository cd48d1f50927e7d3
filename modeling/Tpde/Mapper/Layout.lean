import Tpde.Library.Ranges

/-!
# The image of an object in memory

The first and the last part of `ElfMapper::map`: where the PLT/GOT area and the
allocated sections go in the mapping, and the `mprotect` calls at the end. A new
group of pages starts wherever the flags change; inside a group the sections
follow each other. Offsets are `size_t`: the layout is right as long as the end
of the image is below `2 ^ 64` (`map_layout`), and otherwise it may wrap around
(`map_layout_wraps`).
-/

namespace Tpde.Mapper

open Ranges

/-! ### The model -/

/-- What the mapper reads of a section. -/
structure Section where
  flags : ℕ
  /-- `type == SHT_NOBITS`. -/
  nobits : Bool
  align : ℕ
  size : ℕ
  deriving DecidableEq

namespace Section

/-- `SHF_WRITE`. -/
def write (sec : Section) : Bool := sec.flags.testBit 0

/-- `SHF_ALLOC`. -/
def alloc (sec : Section) : Bool := sec.flags.testBit 1

/-- `SHF_EXECINSTR`. -/
def execinstr (sec : Section) : Bool := sec.flags.testBit 2

/-- Executable before non-executable, read-only before writable, bss after data. -/
def sortKey (sec : Section) : ℕ :=
  (if sec.execinstr then 0 else 4) + (if sec.write then 2 else 0) + if sec.nobits then 1 else 0

end Section

/-- The sections with `SHF_ALLOC` and their indices, sorted by permissions. A relocation section is `none`. -/
def allocSections (sections : List (Option Section)) : List (ℕ × Section) :=
  (sections.zipIdx.filterMap fun s => s.1.bind fun sec => if sec.alloc then some (s.2, sec)
    else none).mergeSort
    fun a b => decide (a.2.sortKey ≤ b.2.sortKey)

/-- A section with its index, its address in the image and the bytes it takes there. -/
structure Placed where
  ref : ℕ
  sec : Section
  addr : ℕ
  size : ℕ

section
variable (pageSize ehFrame : ℕ)

/-- The loop that assigns offsets, from the state of `base_off` and `prev_flags`: the sections with
their addresses, the permission boundaries (with the one at the end), and the size of the image. The
offsets are numbers of any size here, as they are when nothing wraps (`assignOffsetsWord_eq`). -/
def assignOffsets : ℕ → ℕ → List (ℕ × Section) → List Placed × List (ℕ × ℕ) × ℕ
  | baseOff, _, [] => ([], [(baseOff, 0)], baseOff)
  | baseOff, prevFlags, (ref, sec) :: secs =>
    let addr := if prevFlags ≠ sec.flags then alignUp baseOff pageSize else alignUp baseOff sec.align
    -- .eh_frame is given its terminator
    let secSize := if ref = ehFrame then sec.size + 4 else sec.size
    let rest := assignOffsets (addr + secSize) sec.flags secs
    (⟨ref, sec, addr, secSize⟩ :: rest.1,
      (if prevFlags ≠ sec.flags then [(addr, sec.flags)] else []) ++ rest.2.1, rest.2.2)

/-- The same loop with its `size_t` arithmetic. -/
def assignOffsetsWord : ℕ → ℕ → List (ℕ × Section) → List Placed × List (ℕ × ℕ) × ℕ
  | baseOff, _, [] => ([], [(baseOff, 0)], baseOff)
  | baseOff, prevFlags, (ref, sec) :: secs =>
    let addr :=
      (if prevFlags ≠ sec.flags then alignUp baseOff pageSize else alignUp baseOff sec.align) % 2 ^ 64
    let secSize := if ref = ehFrame then (sec.size + 4) % 2 ^ 64 else sec.size
    let rest := assignOffsetsWord ((addr + secSize) % 2 ^ 64) sec.flags secs
    (⟨ref, sec, addr, secSize⟩ :: rest.1,
      (if prevFlags ≠ sec.flags then [(addr, sec.flags)] else []) ++ rest.2.1, rest.2.2)

/-- `SHF_EXECINSTR | SHF_ALLOC`. -/
def pltFlags : ℕ := 6

/-- `PLT_ENTRY_SIZE`. -/
def pltEntrySize : ℕ := 16

/-- The image, for `slots` PLT/GOT slots: the sections, the permission boundaries, and `mapped_size`. -/
def image (slots : ℕ) (sections : List (Option Section)) : List Placed × List (ℕ × ℕ) × ℕ :=
  if slots ≠ 0 then
    let out := assignOffsets pageSize ehFrame (slots * pltEntrySize) pltFlags (allocSections sections)
    (out.1, (0, pltFlags) :: out.2.1, out.2.2)
  else assignOffsets pageSize ehFrame 0 0 (allocSections sections)

/-- The image with its `size_t` arithmetic. -/
def imageWord (slots : ℕ) (sections : List (Option Section)) : List Placed × List (ℕ × ℕ) × ℕ :=
  if slots ≠ 0 then
    let out :=
      assignOffsetsWord pageSize ehFrame (slots * pltEntrySize % 2 ^ 64) pltFlags (allocSections sections)
    (out.1, (0, pltFlags) :: out.2.1, out.2.2)
  else assignOffsetsWord pageSize ehFrame 0 0 (allocSections sections)

end

/-- The permissions of a page. -/
structure Prot where
  read : Bool
  write : Bool
  exec : Bool
  deriving DecidableEq

/-- The permissions for flags. -/
def Prot.ofFlags (flags : ℕ) : Prot := ⟨true, flags.testBit 0, flags.testBit 2⟩

/-- `mprotect(addr, len, prot)` from the start of a page: the pages that start in the range. -/
def mprotect (pageSize addr len : ℕ) (prot : Prot) (pages : ℕ → Prot) : ℕ → Prot :=
  fun p => if addr ≤ p * pageSize ∧ p * pageSize < addr + len then prot else pages p

/-- The loop over the permission boundaries. -/
def adjustPermissions (pageSize : ℕ) : List (ℕ × ℕ) → (ℕ → Prot) → ℕ → Prot
  | (start, flags) :: (stop, flags') :: bounds, pages =>
    adjustPermissions pageSize ((stop, flags') :: bounds)
      (mprotect pageSize start (stop - start) (.ofFlags flags) pages)
  | _, pages => pages

/-! ### The addresses -/

/-- The bytes of a section in the image. -/
def Placed.range (s : Placed) : ℕ × ℕ := (s.addr, s.size)

/-- A byte of the section is on page `p`. -/
def Placed.Touches (pageSize : ℕ) (s : Placed) (p : ℕ) : Prop :=
  ∃ x, s.addr ≤ x ∧ x < s.addr + s.size ∧ x / pageSize = p

/-- What the assembler guarantees of a section: an alignment of at least a byte, and here at most a page. -/
def Section.Ok (pageSize : ℕ) (sec : Section) : Prop := 0 < sec.align ∧ sec.align ∣ pageSize

variable {pageSize ehFrame : ℕ}

theorem assignOffsets_ordered (hps : 0 < pageSize) :
    ∀ (secs : List (ℕ × Section)) (baseOff prevFlags : ℕ), (∀ s ∈ secs, 0 < s.2.align) →
      Ordered baseOff (assignOffsets pageSize ehFrame baseOff prevFlags secs).2.2
        ((assignOffsets pageSize ehFrame baseOff prevFlags secs).1.map Placed.range)
  | [], _, _, _ => le_rfl
  | (ref, sec) :: secs, baseOff, prevFlags, h => by
    refine ⟨?_, assignOffsets_ordered hps secs _ _ fun s hs => h s (List.mem_cons_of_mem _ hs)⟩
    show baseOff ≤ if prevFlags ≠ sec.flags then _ else _
    split
    · exact le_alignUp _ hps
    · exact le_alignUp _ (h _ List.mem_cons_self)

theorem assignOffsets_aligned :
    ∀ (secs : List (ℕ × Section)) (baseOff prevFlags : ℕ), (∀ s ∈ secs, s.2.Ok pageSize) →
      ∀ s ∈ (assignOffsets pageSize ehFrame baseOff prevFlags secs).1, s.sec.align ∣ s.addr
  | [], _, _, _ => nofun
  | (ref, sec) :: secs, baseOff, prevFlags, h => by
    intro s hs
    cases hs with
    | head =>
      show sec.align ∣ if prevFlags ≠ sec.flags then _ else _
      split
      · exact (h _ List.mem_cons_self).2.trans (dvd_alignUp _ _)
      · exact dvd_alignUp _ _
    | tail _ hs => exact assignOffsets_aligned secs _ _ (fun s hs => h s (List.mem_cons_of_mem _ hs)) s hs

/-- The sections are placed in their order, each once. -/
theorem assignOffsets_refs : ∀ (secs : List (ℕ × Section)) (baseOff prevFlags : ℕ),
    (assignOffsets pageSize ehFrame baseOff prevFlags secs).1.map (fun s => (s.ref, s.sec)) = secs
  | [], _, _ => rfl
  | (ref, sec) :: secs, baseOff, prevFlags => by
    simp [assignOffsets, assignOffsets_refs secs]

theorem assignOffsets_size : ∀ (secs : List (ℕ × Section)) (baseOff prevFlags : ℕ),
    ∀ s ∈ (assignOffsets pageSize ehFrame baseOff prevFlags secs).1,
      s.size = if s.ref = ehFrame then s.sec.size + 4 else s.sec.size
  | [], _, _ => nofun
  | (ref, sec) :: secs, baseOff, prevFlags => by
    intro s hs
    cases hs with
    | head => rfl
    | tail _ hs => exact assignOffsets_size secs _ _ s hs

/-- Nothing wraps when the end of the image is a `size_t`. -/
theorem assignOffsetsWord_eq (hps : 0 < pageSize) :
    ∀ (secs : List (ℕ × Section)) (baseOff prevFlags : ℕ), (∀ s ∈ secs, 0 < s.2.align) →
      (assignOffsets pageSize ehFrame baseOff prevFlags secs).2.2 < 2 ^ 64 →
      assignOffsetsWord pageSize ehFrame baseOff prevFlags secs =
        assignOffsets pageSize ehFrame baseOff prevFlags secs
  | [], _, _, _, _ => rfl
  | (ref, sec) :: secs, baseOff, prevFlags, h, hlt => by
    have h' : ∀ s ∈ secs, 0 < s.2.align := fun s hs => h s (List.mem_cons_of_mem _ hs)
    rw [assignOffsets] at hlt ⊢
    rw [assignOffsetsWord]
    generalize (if prevFlags ≠ sec.flags then alignUp baseOff pageSize else alignUp baseOff sec.align) =
      addr at hlt ⊢
    have hend := (@assignOffsets_ordered pageSize ehFrame hps secs
      (addr + if ref = ehFrame then sec.size + 4 else sec.size) sec.flags h').le
    dsimp only at hlt
    have hsize : (if ref = ehFrame then (sec.size + 4) % 2 ^ 64 else sec.size) =
        if ref = ehFrame then sec.size + 4 else sec.size := by
      split_ifs at hend hlt ⊢ <;> omega
    have hrest :=
      assignOffsetsWord_eq hps secs (addr + if ref = ehFrame then sec.size + 4 else sec.size) sec.flags h' hlt
    rw [hsize, Nat.mod_eq_of_lt (show addr < 2 ^ 64 by omega), Nat.mod_eq_of_lt (hend.trans_lt hlt), hrest]

/-! ### The permissions -/

theorem mprotect_of_mem {addr len p : ℕ} {prot : Prot} {pages : ℕ → Prot} (h₁ : addr ≤ p * pageSize)
    (h₂ : p * pageSize < addr + len) : mprotect pageSize addr len prot pages p = prot := if_pos ⟨h₁, h₂⟩

theorem mprotect_of_lt {addr len p : ℕ} {prot : Prot} {pages : ℕ → Prot} (h : p * pageSize < addr) :
    mprotect pageSize addr len prot pages p = pages p := if_neg fun h' => absurd h'.1 (by omega)

/-- A page that holds a byte behind the start of a page starts at or behind it. -/
theorem le_page {start x : ℕ} (hdvd : pageSize ∣ start) (h : start ≤ x) :
    start ≤ x / pageSize * pageSize := by
  obtain ⟨c, rfl⟩ := hdvd
  rcases Nat.eq_zero_or_pos pageSize with rfl | hpos
  · simp
  · have : c ≤ x / pageSize := (Nat.le_div_iff_mul_le hpos).mpr (by rw [mul_comm]; exact h)
    calc pageSize * c = c * pageSize := mul_comm _ _
      _ ≤ x / pageSize * pageSize := Nat.mul_le_mul_right _ this

/-- **The groups of pages**: with a group open since `start`, its pages so far and those of each
section to come get the permissions of the flags, and pages before the group are left alone. -/
theorem adjustPermissions_spec (hps : 0 < pageSize) :
    ∀ (secs : List (ℕ × Section)) (baseOff prevFlags start : ℕ) (pages : ℕ → Prot),
      (∀ s ∈ secs, s.2.Ok pageSize) → pageSize ∣ start → start ≤ baseOff →
      let out := assignOffsets pageSize ehFrame baseOff prevFlags secs
      let final := adjustPermissions pageSize ((start, prevFlags) :: out.2.1) pages
      (∀ p, p * pageSize < start → final p = pages p) ∧
      (∀ p, start ≤ p * pageSize → p * pageSize < baseOff → final p = .ofFlags prevFlags) ∧
      ∀ s ∈ out.1, ∀ p, s.Touches pageSize p → final p = .ofFlags s.sec.flags
  | [], baseOff, prevFlags, start, pages, _, _, hle => by
    refine ⟨fun p hp => mprotect_of_lt hp, fun p h₁ h₂ => ?_, nofun⟩
    exact mprotect_of_mem h₁ (by omega)
  | (ref, sec) :: secs, baseOff, prevFlags, start, pages, h, hdvd, hle => by
    intro out final
    have h' : ∀ s ∈ secs, s.2.Ok pageSize := fun s hs => h s (List.mem_cons_of_mem _ hs)
    by_cases hflags : prevFlags = sec.flags
    · -- the section joins the open group
      have haddr : (if prevFlags ≠ sec.flags then alignUp baseOff pageSize else alignUp baseOff sec.align) =
          alignUp baseOff sec.align := if_neg (not_not.mpr hflags)
      have hbase : baseOff ≤ alignUp baseOff sec.align := le_alignUp _ (h _ List.mem_cons_self).1
      obtain ⟨hbefore, hgroup, hsecs⟩ := adjustPermissions_spec hps secs
        (alignUp baseOff sec.align + if ref = ehFrame then sec.size + 4 else sec.size) sec.flags start
          pages h' hdvd
        (by omega)
      have hfinal : final = adjustPermissions pageSize ((start, sec.flags) :: (assignOffsets pageSize ehFrame
          (alignUp baseOff sec.align + if ref = ehFrame then sec.size + 4
            else sec.size) sec.flags secs).2.1) pages := by
        simp only [final, out, assignOffsets, hflags, ne_eq, not_true_eq_false, if_false, List.nil_append]
      rw [← hfinal] at hbefore hgroup hsecs
      refine ⟨hbefore, fun p h₁ h₂ => hflags ▸ hgroup p h₁ (by omega), fun s hs p hp => ?_⟩
      simp only [out, assignOffsets, haddr] at hs
      cases hs with
      | head =>
        obtain ⟨x, h₁, h₂, rfl⟩ := hp
        simp only at h₁ h₂
        refine hgroup _ (le_page hdvd (by omega)) ?_
        exact lt_of_le_of_lt (Nat.div_mul_le_self x pageSize) h₂
      | tail _ hs => exact hsecs s hs p hp
    · -- the section opens a group of its own
      have haddr : (if prevFlags ≠ sec.flags then alignUp baseOff pageSize else alignUp baseOff sec.align) =
          alignUp baseOff pageSize := if_pos hflags
      have hbase : baseOff ≤ alignUp baseOff pageSize := le_alignUp _ hps
      have hdvd' : pageSize ∣ alignUp baseOff pageSize := dvd_alignUp _ _
      obtain ⟨hbefore, hgroup, hsecs⟩ := adjustPermissions_spec hps secs
        (alignUp baseOff pageSize + if ref = ehFrame then sec.size + 4 else sec.size) sec.flags
        (alignUp baseOff pageSize)
          (mprotect pageSize start (alignUp baseOff pageSize - start) (.ofFlags prevFlags) pages)
        h' hdvd' (Nat.le_add_right _ _)
      have hfinal :
        final = adjustPermissions pageSize ((alignUp baseOff pageSize, sec.flags) :: (assignOffsets
          pageSize ehFrame (alignUp baseOff pageSize + if ref = ehFrame then sec.size + 4
            else sec.size) sec.flags
          secs).2.1)
            (mprotect pageSize start (alignUp baseOff pageSize - start) (.ofFlags prevFlags) pages) := by
        simp only [final, out, assignOffsets, hflags, ne_eq, not_false_eq_true, if_true,
          List.singleton_append, adjustPermissions]
      rw [← hfinal] at hbefore hgroup hsecs
      refine ⟨fun p hp => ?_, fun p h₁ h₂ => ?_, fun s hs p hp => ?_⟩
      · rw [hbefore p (by omega), mprotect_of_lt hp]
      · rw [hbefore p (by omega), mprotect_of_mem h₁ (by omega)]
      · simp only [out, assignOffsets, haddr] at hs
        cases hs with
        | head =>
          obtain ⟨x, h₁, h₂, rfl⟩ := hp
          simp only at h₁ h₂
          refine hgroup _ (le_page hdvd' h₁) ?_
          exact lt_of_le_of_lt (Nat.div_mul_le_self x pageSize) h₂
        | tail _ hs => exact hsecs s hs p hp

theorem assignOffsets_bounds_ne_nil : ∀ (secs : List (ℕ × Section)) (baseOff prevFlags : ℕ),
    (assignOffsets pageSize ehFrame baseOff prevFlags secs).2.1 ≠ []
  | [], _, _ => List.cons_ne_nil _ _
  | (_, _) :: secs, _, _ => fun h => assignOffsets_bounds_ne_nil secs _ _ (List.append_eq_nil_iff.mp h).2

/-- The `mprotect` calls are for ranges that start with a page. -/
theorem assignOffsets_bounds : ∀ (secs : List (ℕ × Section)) (baseOff prevFlags : ℕ),
    ∀ b ∈ (assignOffsets pageSize ehFrame baseOff prevFlags secs).2.1.dropLast, pageSize ∣ b.1
  | [], _, _ => by simp [assignOffsets]
  | (ref, sec) :: secs, baseOff, prevFlags => by
    intro b hb
    have ih := assignOffsets_bounds secs
    by_cases hflags : prevFlags = sec.flags
    · simp only [assignOffsets, hflags, ne_eq, not_true_eq_false, if_false, List.nil_append] at hb
      exact ih _ _ b hb
    · simp only [assignOffsets, hflags, ne_eq, not_false_eq_true, if_true, List.singleton_append] at hb
      rw [List.dropLast_cons_of_ne_nil (assignOffsets_bounds_ne_nil _ _ _)] at hb
      rcases List.mem_cons.mp hb with rfl | hb
      · exact dvd_alignUp _ _
      · exact ih _ _ b hb

/-! ### The image -/

theorem mem_allocSections {sections : List (Option Section)} {i : ℕ} {sec : Section} :
    (i, sec) ∈ allocSections sections ↔ sections[i]? = some (some sec) ∧ sec.alloc = true := by
  rw [allocSections, (List.mergeSort_perm _ _).mem_iff, List.mem_filterMap]
  constructor
  · rintro ⟨⟨o, j⟩, hmem, hsome⟩
    obtain ⟨sec', rfl, hif⟩ := Option.bind_eq_some_iff.mp hsome
    split at hif
    · rename_i halloc
      obtain ⟨rfl, rfl⟩ : j = i ∧ sec' = sec := by simpa using hif
      exact ⟨List.mk_mem_zipIdx_iff_getElem?.mp hmem, halloc⟩
    · simp at hif
  · rintro ⟨hget, halloc⟩
    exact ⟨(some sec, i), List.mk_mem_zipIdx_iff_getElem?.mpr hget, by simp [halloc]⟩

theorem allocSections_nodup (sections : List (Option Section)) :
    ((allocSections sections).map (·.1)).Nodup := by
  have hperm := (List.mergeSort_perm (sections.zipIdx.filterMap fun s => s.1.bind fun sec =>
    if sec.alloc then some (s.2, sec) else none) fun a b => decide (a.2.sortKey ≤ b.2.sortKey)).map (·.1)
  refine hperm.nodup_iff.mpr ?_
  have hsub : (((sections.zipIdx.filterMap fun s => s.1.bind fun sec =>
      if sec.alloc then some (s.2, sec) else none).map (·.1)).Sublist (sections.zipIdx.map (·.2))) := by
    generalize sections.zipIdx = l
    induction l with
    | nil => exact .slnil
    | cons a l ih =>
      obtain ⟨_ | sec, i⟩ := a
      · simpa using ih.cons i
      · by_cases h : sec.alloc = true
        · simpa [h] using ih
        · simpa [h] using ih.cons i
  refine hsub.nodup ?_
  rw [List.zipIdx_map_snd]
  exact List.nodup_range'

/-- The sections of the image are placed behind the PLT/GOT area. -/
theorem image_fst (pageSize ehFrame slots : ℕ) (sections : List (Option Section)) :
    ∃ prev, (image pageSize ehFrame slots sections).1 =
        (assignOffsets pageSize ehFrame (slots * pltEntrySize) prev (allocSections sections)).1 ∧
      (image pageSize ehFrame slots sections).2.2 =
        (assignOffsets pageSize ehFrame (slots * pltEntrySize) prev (allocSections sections)).2.2 := by
  by_cases h : slots = 0
  · subst h
    exact ⟨0, rfl, rfl⟩
  · exact ⟨pltFlags, by simp [image, h], by simp [image, h]⟩

/-- The image of sections that fit is that of unbounded numbers. -/
theorem imageWord_eq (hps : 0 < pageSize) {slots : ℕ} {sections : List (Option Section)}
    (h : ∀ sec, some sec ∈ sections →
      0 < sec.align) (hlt : (image pageSize ehFrame slots sections).2.2 < 2 ^ 64) :
    imageWord pageSize ehFrame slots sections = image pageSize ehFrame slots sections := by
  have hsecs : ∀ s ∈ allocSections sections, 0 < s.2.align := by
    rintro ⟨i, sec⟩ hs
    exact h sec (List.mem_of_getElem? (mem_allocSections.mp hs).1)
  rw [imageWord, image]
  by_cases hslots : slots = 0
  · rw [image, if_neg (not_not.mpr hslots)] at hlt
    rw [if_neg (not_not.mpr hslots), if_neg (not_not.mpr hslots), assignOffsetsWord_eq hps _ _ _ hsecs hlt]
  · rw [image, if_pos hslots] at hlt
    have hle := (@assignOffsets_ordered pageSize ehFrame hps _ (slots * pltEntrySize) pltFlags hsecs).le
    rw [if_pos hslots, if_pos hslots, Nat.mod_eq_of_lt (hle.trans_lt hlt),
      assignOffsetsWord_eq hps _ _ _ hsecs hlt]

/-- What is asked of the image: the sections that are allocated are placed, each once; they and the
PLT/GOT area (the first `area` bytes) are apart and in the mapping; sections are aligned, wherever the
mapping starts; pages that sections share have one kind of permissions, and in the end a section's
pages have those of its flags. -/
structure LayoutOk (pageSize ehFrame area : ℕ) (sections : List (Option Section))
    (img : List Placed × List (ℕ × ℕ) × ℕ) (final : ℕ → Prot) : Prop where
  placed : ∀ i sec, (∃ s ∈ img.1, s.ref = i ∧ s.sec = sec) ↔ sections[i]? = some (some sec) ∧ sec.alloc = true
  once : (img.1.map Placed.ref).Nodup
  size : ∀ s ∈ img.1, s.size = if s.ref = ehFrame then s.sec.size + 4 else s.sec.size
  apart : ((0, area) :: img.1.map Placed.range).Pairwise Apart
  inside : ∀ r ∈ (0, area) :: img.1.map Placed.range, r.1 + r.2 ≤ img.2.2
  aligned : ∀ s ∈ img.1, ∀ mappedAddr, pageSize ∣ mappedAddr → s.sec.align ∣ mappedAddr + s.addr
  shared : ∀ s ∈ img.1, ∀ s' ∈ img.1, ∀ p, s.Touches pageSize p → s'.Touches pageSize p →
    Prot.ofFlags s.sec.flags = Prot.ofFlags s'.sec.flags
  prot : ∀ s ∈ img.1, ∀ p, s.Touches pageSize p → final p = .ofFlags s.sec.flags
  protPlt : ∀ p, p * pageSize < area → final p = .ofFlags pltFlags
  calls : ∀ b ∈ img.2.1.dropLast, pageSize ∣ b.1

/-- The layout in unbounded numbers, from any permissions that the pages have before. -/
theorem image_layout (hps : 0 < pageSize) (ehFrame slots : ℕ) {sections : List (Option Section)}
    (h : ∀ sec, some sec ∈ sections → sec.Ok pageSize) (pages : ℕ → Prot) :
    LayoutOk pageSize ehFrame (slots * pltEntrySize) sections (image pageSize ehFrame slots sections)
      (adjustPermissions pageSize (image pageSize ehFrame slots sections).2.1 pages) := by
  have hsecs : ∀ s ∈ allocSections sections, s.2.Ok pageSize := by
    rintro ⟨i, sec⟩ hs
    exact h sec (List.mem_of_getElem? (mem_allocSections.mp hs).1)
  -- with no slots the loop starts as if behind an empty area of flags 0
  obtain ⟨prev, hfst, hsnd, hbounds, hplt⟩ : ∃ prev,
      (image pageSize ehFrame slots sections).1 =
        (assignOffsets pageSize ehFrame (slots * pltEntrySize) prev (allocSections sections)).1 ∧
      (image pageSize ehFrame slots sections).2.2 =
        (assignOffsets pageSize ehFrame (slots * pltEntrySize) prev (allocSections sections)).2.2 ∧
      ((image pageSize ehFrame slots sections).2.1 = (0, prev) ::
          (assignOffsets pageSize ehFrame (slots * pltEntrySize) prev (allocSections sections)).2.1 ∨
        prev = 0 ∧ slots = 0 ∧ (image pageSize ehFrame slots sections).2.1 =
          (assignOffsets pageSize ehFrame (slots * pltEntrySize) prev (allocSections sections)).2.1) ∧
      (0 < slots → prev = pltFlags) := by
    by_cases hslots : slots = 0
    · subst hslots
      exact ⟨0, rfl, rfl, .inr ⟨rfl, rfl, rfl⟩, fun h => absurd h (lt_irrefl 0)⟩
    · exact ⟨pltFlags, by simp [image, hslots], by simp [image, hslots], .inl (by simp [image, hslots]),
        fun _ => rfl⟩
  have hord := @assignOffsets_ordered _ ehFrame hps (allocSections sections) (slots * pltEntrySize) prev
    fun s hs => (hsecs s hs).1
  have hrefs := @assignOffsets_refs pageSize ehFrame (allocSections sections)
    (slots * pltEntrySize) prev
  have hcons : Ordered 0 (image pageSize ehFrame slots sections).2.2
      ((0, slots * pltEntrySize) :: (image pageSize ehFrame slots sections).1.map Placed.range) := by
    rw [hfst, hsnd]
    exact ⟨le_rfl, by rw [zero_add]; exact hord⟩
  -- the boundaries with the empty area in front make the same calls
  have hfinal : adjustPermissions pageSize (image pageSize ehFrame slots sections).2.1 pages =
      adjustPermissions pageSize ((0, prev) ::
        (assignOffsets pageSize ehFrame (slots * pltEntrySize) prev (allocSections sections)).2.1) pages := by
    rcases hbounds with hb | ⟨rfl, rfl, hb⟩
    · rw [hb]
    · rw [hb]
      have hempty : ∀ bs : List (ℕ × ℕ), (∀ b ∈ bs.head?, b.1 = 0) →
          adjustPermissions pageSize ((0, 0) :: bs) pages = adjustPermissions pageSize bs pages := by
        intro bs hbs
        cases bs with
        | nil => rfl
        | cons b bs =>
          obtain ⟨stop, flags⟩ := b
          obtain rfl : stop = 0 := hbs _ rfl
          rw [adjustPermissions]
          have hid : mprotect pageSize 0 (0 - 0) (.ofFlags 0) pages = pages :=
            funext fun p => if_neg (by omega)
          rw [hid]
      refine (hempty _ ?_).symm
      cases hsec : allocSections sections with
      | nil => simp [assignOffsets, pltEntrySize]
      | cons s secs =>
        have halloc : s.2.alloc = true :=
          (mem_allocSections.mp (hsec ▸ List.mem_cons_self : (s.1, s.2) ∈ _)).2
        have hflags : (0 : ℕ) ≠ s.2.flags := by
          rintro h0
          rw [Section.alloc, ← h0] at halloc
          simp at halloc
        simp [assignOffsets, hflags]
  obtain ⟨-, hgroup, hprot⟩ := @adjustPermissions_spec _ ehFrame hps (allocSections sections)
    (slots * pltEntrySize) prev 0 pages hsecs (dvd_zero _) (Nat.zero_le _)
  rw [← hfinal] at hgroup hprot
  rw [← hfst] at hprot hrefs
  refine ⟨fun i sec => ?_, ?_, ?_, hcons.pairwise, fun r hr => (hcons.bounds r hr).2, fun s hs m hm => ?_, ?_,
    hprot, ?_, ?_⟩
  · rw [← mem_allocSections, ← hrefs, List.mem_map]
    simp only [Prod.mk.injEq]
  · have := allocSections_nodup sections
    rw [← hrefs, List.map_map] at this
    exact this
  · rw [hfst]
    exact assignOffsets_size _ _ _
  · have hmem : (s.ref, s.sec) ∈ allocSections sections := hrefs ▸ List.mem_map_of_mem hs
    exact dvd_add ((hsecs _ hmem).2.trans hm) (assignOffsets_aligned _ _ _ hsecs s (hfst ▸ hs))
  · intro s hs s' hs' p hp hp'
    rw [← hprot s hs p hp, ← hprot s' hs' p hp']
  · intro p hp
    rw [hgroup p (Nat.zero_le _) hp, hplt (by
      by_contra h0
      rw [show slots = 0 by omega, zero_mul] at hp
      omega)]
  · rcases hbounds with hb | ⟨rfl, rfl, hb⟩
    · rw [hb, List.dropLast_cons_of_ne_nil (assignOffsets_bounds_ne_nil _ _ _)]
      intro b hb
      rcases List.mem_cons.mp hb with rfl | hb
      · exact dvd_zero _
      · exact assignOffsets_bounds _ _ _ b hb
    · rw [hb]
      exact assignOffsets_bounds _ _ _

/-- **The layout of the image**: from any permissions that the pages have before, for any sections,
PLT/GOT slots and page size, as long as the end of the image is below `2 ^ 64`. -/
theorem map_layout (hps : 0 < pageSize) (ehFrame slots : ℕ) {sections : List (Option Section)}
    (h : ∀ sec, some sec ∈ sections →
      sec.Ok pageSize) (hlt : (image pageSize ehFrame slots sections).2.2 < 2 ^ 64)
    (pages : ℕ → Prot) :
    LayoutOk pageSize ehFrame (slots * pltEntrySize) sections (imageWord pageSize ehFrame slots sections)
      (adjustPermissions pageSize (imageWord pageSize ehFrame slots sections).2.1 pages) := by
  rw [imageWord_eq hps (fun sec hsec => (h sec hsec).1) hlt]
  exact image_layout hps ehFrame slots h pages

/-- `.text`, its relocations, `.eh_frame`, `.data` and `.bss`. -/
def textDataBss : List (Option Section) :=
  [some ⟨6, false, 16, 100⟩, none, some ⟨2, false, 8, 40⟩, some ⟨3, false, 8, 4096⟩, some ⟨3, true, 64, 9⟩]

theorem allocSections_textDataBss : allocSections textDataBss =
    [(0, ⟨6, false, 16, 100⟩), (2, ⟨2, false, 8, 40⟩), (3, ⟨3, false, 8, 4096⟩), (4, ⟨3, true, 64, 9⟩)] := by
  refine (List.mergeSort_of_pairwise ?_).trans rfl
  decide

/-- The layout of `textDataBss` behind four slots, on pages of 4 KiB. -/
theorem map_layout_textDataBss : LayoutOk 4096 2 64 textDataBss (imageWord 4096 2 4 textDataBss)
    (adjustPermissions 4096 (imageWord 4096 2 4 textDataBss).2.1 fun _ => ⟨true, true, false⟩) := by
  refine map_layout (by decide) 2 4 ?_ ?_ _
  · intro sec hsec
    simp only [textDataBss, List.mem_cons, Option.some.injEq, reduceCtorEq, List.not_mem_nil, or_false,
      false_or] at hsec
    rcases hsec with rfl | rfl | rfl | rfl <;> exact ⟨by decide, by decide⟩
  · rw [image, allocSections_textDataBss]
    decide

/-- A `.bss` of nearly `2 ^ 64` bytes behind two slots: the size of the image wraps around to less than
a page, and the section is behind its end. -/
theorem map_layout_wraps : ∃ sections : List (Option Section),
    (∀ sec, some sec ∈ sections → sec.Ok 4096 ∧ sec.size < 2 ^ 64) ∧
    ∀ pages, ¬ LayoutOk 4096 0 32 sections (imageWord 4096 0 2 sections)
      (adjustPermissions 4096 (imageWord 4096 0 2 sections).2.1 pages) := by
  refine ⟨[none, some ⟨3, true, 16, 2 ^ 64 - 16⟩], ?_, fun pages hok => ?_⟩
  · intro sec hsec
    obtain rfl : sec = ⟨3, true, 16, 2 ^ 64 - 16⟩ := by simpa using hsec
    exact ⟨⟨by decide, by decide⟩, by decide⟩
  · have halloc : allocSections [none, some ⟨3, true, 16, 2 ^ 64 - 16⟩] = [(1, ⟨3, true, 16, 2 ^ 64 - 16⟩)] :=
      List.mergeSort_singleton _
    have hinside := hok.inside (4096, 2 ^ 64 - 16)
    rw [imageWord, halloc] at hinside
    exact absurd (hinside (by decide)) (by decide)

end Tpde.Mapper
