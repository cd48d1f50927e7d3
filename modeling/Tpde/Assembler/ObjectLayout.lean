import Tpde.Assembler.ObjectFile
import Tpde.Assembler.Tables
import Tpde.Library.ElfLayout

/-!
# The layout of object files

The bytes that `build_object_file` writes for sections and tables follow one another, and
each header says where its part is (`blocks_laidOut`).
-/

namespace Tpde.Assembler

open Bytes Elf ElfState

/-- The headers of blocks with their bytes. -/
def contents (blocks : List Block) : List Content := blocks.map fun block => (block.hdr, block.bytes)

theorem contentBytes_contents (blocks : List Block) :
    contentBytes (contents blocks) = blocks.flatMap Block.bytes := by
  rw [contentBytes, contents, List.flatMap_map]

theorem length_contentBytes (blocks : List Block) :
    (contentBytes (contents blocks)).length = blocksLength blocks := by
  rw [contentBytes_contents, List.length_flatMap, blocksLength]

theorem alignUp_ge (n : ℕ) : n ≤ alignUp n 8 := by
  rw [alignUp]
  omega

theorem dvd_alignUp (n : ℕ) : 8 ∣ alignUp n 8 := Nat.dvd_mul_left 8 _

theorem dvd_length_pad8 (bs : List UInt8) : 8 ∣ (bs ++ pad8 bs.length).length := by
  have hle := alignUp_ge bs.length
  rw [List.length_append, pad8, List.length_replicate, Nat.add_sub_cancel' hle]
  exact dvd_alignUp _

namespace ElfState

variable {st : ElfState}

/-- A section whose kind is in order takes what its header says. -/
theorem sectionBlock_range (off : ℕ) {sec : DataSection}
    (hvirtual : sec.isVirtual = decide (sec.type = shtNobits)) :
    (st.sectionBlock off sec).hdr.range.2 ≤ (st.sectionBlock off sec).bytes.length := by
  show (if sec.type = shtNobits then 0 else sec.size) ≤ (sec.data ++ pad8 sec.data.length).length
  split
  · exact Nat.zero_le _
  · rename_i htype
    rw [DataSection.size, hvirtual, decide_eq_false htype, List.length_append]
    exact Nat.le_add_right _ _

theorem relaBlock_range (off : ℕ) (sec : DataSection) (i : ℕ) :
    (st.relaBlock off sec i).hdr.range.2 = (st.relaBlock off sec i).bytes.length := by
  have hlen (reloc : Relocation) (_ : reloc ∈ sec.relocs) :
    (pack (st.relaOf reloc).fields).length = 24 := length_pack _
  exact (length_flatMap hlen).symm

/-- What the loop over the sections writes: a block for each section, behind it that of its relocations. -/
structure SectionsLaid (st : ElfState) (i off : ℕ) (secs : List (Option DataSection))
    (blocks : List Block) : Prop where
  laidOut : LaidOut off (contents blocks)
  length : blocks.length = secs.length
  aligned : ∀ block ∈ blocks, 8 ∣ block.bytes.length
  sections {j : ℕ} {sec : DataSection} (h : secs[j]? = some (some sec)) : ∃ off,
    blocks[j]? = some (st.sectionBlock off sec)
  relas {j : ℕ} {sec : DataSection} (h : secs[j]? = some (some sec)) (hrelocs : sec.hasRelocs = true) :
    ∃ off, blocks[j + 1]? = some (st.relaBlock off sec (i + j))
  kinds {block : Block} (h : block ∈ blocks) : ∃ sec, some sec ∈ secs ∧ ∃ off,
    block = st.sectionBlock off sec ∨ sec.hasRelocs = true ∧ ∃ j < secs.length,
      block = st.relaBlock off sec (i + j)

theorem SectionsLaid.nil (i off : ℕ) : SectionsLaid st i off [] [] where
  laidOut := trivial
  length := rfl
  aligned _ h := absurd h List.not_mem_nil
  sections h := by cases h
  relas h := by cases h
  kinds h := absurd h List.not_mem_nil

/-- A section without room for relocations comes first. -/
theorem SectionsLaid.cons {i off : ℕ} {secs : List (Option DataSection)} {blocks : List Block}
    {sec : DataSection}
    (hvirtual : sec.isVirtual = decide (sec.type = shtNobits)) (hrelocs : sec.hasRelocs = false)
    (h : SectionsLaid st (i + 1) (off + (st.sectionBlock off sec).bytes.length) secs blocks) :
    SectionsLaid st i off (some sec :: secs) (st.sectionBlock off sec :: blocks) where
  laidOut := ⟨rfl, sectionBlock_range off hvirtual, h.laidOut⟩
  length := congrArg Nat.succ h.length
  aligned block hblock := by
    cases List.mem_cons.mp hblock with
    | inl heq =>
      rw [heq]
      exact dvd_length_pad8 _
    | inr hmem => exact h.aligned block hmem
  sections {j sec'} hj := by
    cases j with
    | zero =>
      cases hj
      exact ⟨off, rfl⟩
    | succ j => exact h.sections hj
  relas {j sec'} hj hrelocs' := by
    cases j with
    | zero =>
      cases hj
      rw [hrelocs] at hrelocs'
      cases hrelocs'
    | succ j =>
      have hrela := h.relas hj hrelocs'
      rwa [show i + 1 + j = i + (j + 1) by omega] at hrela
  kinds {block} hblock := by
    cases List.mem_cons.mp hblock with
    | inl heq => exact ⟨sec, List.mem_cons_self, off, .inl heq⟩
    | inr hmem =>
      obtain ⟨sec', hsec', off', hkind⟩ := h.kinds hmem
      refine ⟨sec', List.mem_cons_of_mem _ hsec', off', hkind.imp_right fun hrela => ⟨hrela.1, ?_⟩⟩
      obtain ⟨-, j, hj, hrela⟩ := hrela
      refine ⟨j + 1, Nat.succ_lt_succ hj, ?_⟩
      rwa [show i + (j + 1) = i + 1 + j by omega]

/-- A section with room for relocations comes first. -/
theorem SectionsLaid.consRela {i off : ℕ} {secs : List (Option DataSection)} {blocks : List Block}
    {sec : DataSection}
    (hvirtual : sec.isVirtual = decide (sec.type = shtNobits)) (hrelocs : sec.hasRelocs = true)
    (h : SectionsLaid st (i + 2) (off + (st.sectionBlock off sec).bytes.length +
      (st.relaBlock (off + (st.sectionBlock off sec).bytes.length) sec i).bytes.length) secs blocks) :
    SectionsLaid st i off (some sec :: none :: secs)
      (st.sectionBlock off sec :: st.relaBlock (off + (st.sectionBlock off sec).bytes.length) sec i ::
        blocks) where
  laidOut := ⟨rfl, sectionBlock_range off hvirtual, rfl, (relaBlock_range ..).le, h.laidOut⟩
  length := congrArg (Nat.succ ∘ Nat.succ) h.length
  aligned block hblock := by
    cases List.mem_cons.mp hblock with
    | inl heq =>
      rw [heq]
      exact dvd_length_pad8 _
    | inr hmem =>
      cases List.mem_cons.mp hmem with
      | inl heq =>
        rw [heq, ← relaBlock_range]
        exact (Nat.dvd_mul_right 8 3).mul_right sec.relocs.length
      | inr hmem => exact h.aligned block hmem
  sections {j sec'} hj := by
    match j, hj with
    | 0, hj =>
      cases hj
      exact ⟨off, rfl⟩
    | 1, hj => cases hj
    | j + 2, hj => exact h.sections hj
  relas {j sec'} hj hrelocs' := by
    match j, hj with
    | 0, hj =>
      cases hj
      exact ⟨_, rfl⟩
    | 1, hj => cases hj
    | j + 2, hj =>
      have hrela := h.relas hj hrelocs'
      rwa [show i + 2 + j = i + (j + 2) by omega] at hrela
  kinds {block} hblock := by
    cases List.mem_cons.mp hblock with
    | inl heq => exact ⟨sec, List.mem_cons_self, off, .inl heq⟩
    | inr hmem =>
      cases List.mem_cons.mp hmem with
      | inl heq => exact ⟨sec, List.mem_cons_self, _, .inr ⟨hrelocs, 0, Nat.succ_pos _, heq⟩⟩
      | inr hmem =>
        obtain ⟨sec', hsec', off', hkind⟩ := h.kinds hmem
        refine ⟨sec', List.mem_cons_of_mem _ (List.mem_cons_of_mem _ hsec'), off',
          hkind.imp_right fun hrela => ⟨hrela.1, ?_⟩⟩
        obtain ⟨-, j, hj, hrela⟩ := hrela
        refine ⟨j + 2, Nat.add_lt_add_right hj 2, ?_⟩
        rwa [show i + (j + 2) = i + 2 + j by omega]

/-- The loop over sections with room for relocations where it should be. -/
theorem sectionBlocks_laid (ws : List Bool) (i off : ℕ) {secs : List (Option DataSection)}
    (hrooms : secs.map (Option.map DataSection.hasRelocs) = ws.flatMap room)
    (hvirtual : ∀ sec, some sec ∈ secs → sec.isVirtual = decide (sec.type = shtNobits)) :
    ∃ blocks, st.sectionBlocks i off secs = some blocks ∧ SectionsLaid st i off secs blocks := by
  induction ws generalizing i off secs with
  | nil =>
    cases List.map_eq_nil_iff.mp hrooms
    exact ⟨[], rfl, .nil i off⟩
  | cons w ws ih =>
    rw [List.flatMap_cons, room, List.cons_append] at hrooms
    obtain ⟨x, rest, rfl, hx, hrest⟩ := List.map_eq_cons_iff.mp hrooms
    obtain ⟨sec, rfl, hw⟩ := Option.map_eq_some_iff.mp hx
    have hsec := hvirtual sec List.mem_cons_self
    cases w with
    | false =>
      obtain ⟨blocks, hblocks, hlaid⟩ :=
        ih (i + 1) (off + (st.sectionBlock off sec).bytes.length) hrest fun sec hsec =>
        hvirtual sec (List.mem_cons_of_mem _ hsec)
      refine ⟨_, ?_, hlaid.cons hsec hw⟩
      unfold sectionBlocks
      simp only [hw, Bool.false_eq_true, if_false, hblocks, Option.map_some]
    | true =>
      obtain ⟨y, rest', rfl, hy, hrest'⟩ := List.map_eq_cons_iff.mp hrest
      cases Option.map_eq_none_iff.mp hy
      obtain ⟨blocks, hblocks, hlaid⟩ := ih (i + 2) (off + (st.sectionBlock off sec).bytes.length +
        (st.relaBlock (off + (st.sectionBlock off sec).bytes.length) sec i).bytes.length) hrest'
          fun sec hsec =>
          hvirtual sec (List.mem_cons_of_mem _ (List.mem_cons_of_mem _ hsec))
      refine ⟨_, ?_, hlaid.consRela hsec hw⟩
      unfold sectionBlocks
      simp only [hw, if_true, hblocks, Option.map_some]

/-! ### The tables -/

theorem length_symtab (st : ElfState) (off : ℕ) :
    (st.symtabBlock off).bytes.length = 24 * (st.localSymbols.length + st.globalSymbols.length) := by
  have hlen (sym : Sym) (_ : sym ∈ st.localSymbols ++ st.globalSymbols) :
    (pack sym.fields).length = 24 := length_pack _
  rw [← List.length_append]
  exact length_flatMap hlen

theorem length_padded (bs : List UInt8) : (bs ++ pad8 bs.length).length = alignUp bs.length 8 := by
  rw [List.length_append, pad8, List.length_replicate, Nat.add_sub_cancel' (alignUp_ge _)]

/-- The sections of which all assemblers have one. -/
theorem predefBlocks_laidOut (st : ElfState) (off : ℕ) : LaidOut off (contents (st.predefBlocks off)) := by
  refine ⟨rfl, Nat.zero_le _, rfl, (length_symtab st off).ge, rfl, (length_padded _).ge, rfl, ?_, trivial⟩
  show shstrtab.length + st.shstrtabExtra.length ≤ _
  rw [← List.length_append]
  show _ ≤ ((shstrtab ++ st.shstrtabExtra) ++ pad8 _).length
  exact (List.prefix_append _ _).length_le

theorem predefBlocks_aligned (st : ElfState) (off : ℕ) : ∀ block ∈ st.predefBlocks off,
    8 ∣ block.bytes.length := by
  intro block hblock
  simp only [predefBlocks, List.mem_cons, List.not_mem_nil, or_false] at hblock
  rcases hblock with rfl | rfl | rfl | rfl
  · exact Nat.dvd_zero 8
  · rw [length_symtab]
    exact (Nat.dvd_mul_right 8 3).mul_right _
  · exact dvd_length_pad8 _
  · have hdvd := dvd_length_pad8 (shstrtab ++ st.shstrtabExtra)
    rw [@List.length_append _ shstrtab st.shstrtabExtra] at hdvd
    exact hdvd

/-- The table with the sections of all symbols: where there is none, it is zero. -/
def shndxEntries (st : ElfState) : List ℕ :=
  resize 0 st.localShndx st.localSymbols.length ++ resize 0 st.globalShndx st.globalSymbols.length

theorem resize_eq {shndx : List ℕ} {n : ℕ} (h : shndx.length ≤ n) :
    resize 0 shndx n = shndx ++ List.replicate (n - shndx.length) 0 := by
  rw [resize, List.take_of_length_le h]

theorem length_resize {α : Type} (zero : α) (xs : List α) (n : ℕ) : (resize zero xs n).length = n := by
  rw [resize, List.length_append, List.length_take, List.length_replicate]
  omega

theorem flatMap_replicate_zero (n : ℕ) : (List.replicate n 0).flatMap (ofNat 4) = List.replicate
    (4 * n) 0 := by
  induction n with
  | zero => rfl
  | succ n ih =>
    rw [List.replicate_succ, List.flatMap_cons, ih, Nat.mul_succ, Nat.add_comm (4 * n), List.replicate_add]
    rfl

/-- `missing` entries of a table are zero. -/
theorem flatMap_resize {shndx : List ℕ} {n : ℕ} (h : shndx.length ≤ n) (hn : n < 2 ^ 32) :
    (resize 0 shndx n).flatMap (ofNat 4) =
    shndx.flatMap (ofNat 4) ++ List.replicate (4 * ((n + 2 ^ 32 - shndx.length) % 2 ^ 32)) 0 := by
  have hmissing : (n + 2 ^ 32 - shndx.length) % 2 ^ 32 = n - shndx.length := by omega
  rw [resize_eq h, List.flatMap_append, flatMap_replicate_zero, hmissing]

theorem shndxBlock_bytes (h : Inv st) (hlocals : st.localSymbols.length ≤ 2 ^ 31) (off : ℕ) :
    (st.shndxBlock off).bytes = st.shndxEntries.flatMap (ofNat 4) := by
  have hx := h.xindex hlocals
  have hglobals := h.shape.globalCount
  rw [shndxEntries, List.flatMap_append, flatMap_resize hx.locals.length (by omega),
    flatMap_resize hx.globals.length (by omega)]
  simp only [shndxBlock, List.append_assoc]

theorem length_shndxEntries (st : ElfState) :
    st.shndxEntries.length = st.localSymbols.length + st.globalSymbols.length := by
  rw [shndxEntries, List.length_append, length_resize, length_resize]

theorem shndxBlock_laidOut (h : Inv st) (hlocals : st.localSymbols.length ≤ 2 ^ 31) (off : ℕ) :
    LaidOut off (contents [st.shndxBlock off]) := by
  have hlen (ref : ℕ) (_ : ref ∈ st.shndxEntries) : (ofNat 4 ref).length = 4 := length_ofNat _ _
  refine ⟨rfl, ?_, trivial⟩
  show 4 * (st.localSymbols.length + st.globalSymbols.length) ≤ (st.shndxBlock off).bytes.length
  rw [shndxBlock_bytes h hlocals, length_flatMap hlen, length_shndxEntries]

/-! ### The file -/

/-- The offset behind all headers. -/
def headersEnd (st : ElfState) : ℕ := 64 + 64 * st.secCount

/-- The block with the sections of symbols, if sections do not fit into symbols. -/
def shndxBlocks (st : ElfState) (off : ℕ) : List Block :=
  if shnLoreserve ≤ st.sections.length then [st.shndxBlock off] else []

/-- The parts of a file: the blocks of sections lie between those of the tables. -/
structure FileLaid (st : ElfState) (secs : List Block) (blocks : List Block) : Prop where
  eq : ∃ off, blocks = st.predefBlocks st.headersEnd ++ secs ++ st.shndxBlocks off
  sections : ∃ off, SectionsLaid st predefSecCount off (st.sections.drop predefSecCount) secs
  laidOut : LaidOut st.headersEnd (contents blocks)
  aligned : ∀ block ∈ blocks, 8 ∣ block.hdr.offset

/-- The first sections, which are written apart. -/
theorem Shape.drop (h : Shape st) : ∃ ws : List Bool,
    (st.sections.drop predefSecCount).map (Option.map DataSection.hasRelocs) = ws.flatMap room := by
  obtain ⟨ws, hws⟩ := h.rooms
  refine ⟨ws, ?_⟩
  have hdrop := congrArg (List.drop predefSecCount) hws
  have hreplicate :
    (List.replicate predefSecCount false).flatMap room = List.replicate predefSecCount (some false) := by
    rw [predefSecCount_eq]
    rfl
  rw [List.flatMap_append, hreplicate, List.drop_left' List.length_replicate, kinds, List.map_map,
    ← List.map_drop] at hdrop
  rw [← hdrop]
  refine List.map_congr_left fun x _ => ?_
  cases x <;> rfl

theorem Shape.isVirtual (h : Shape st) {sec : DataSection} (hsec : some sec ∈ st.sections) :
    sec.isVirtual = decide (sec.type = shtNobits) :=
      h.virtual sec.kind (List.mem_map.mpr ⟨some sec, hsec, rfl⟩)

theorem dvd_blocksLength {blocks : List Block} (h : ∀ block ∈ blocks, 8 ∣ block.bytes.length) :
    8 ∣ blocksLength blocks := by
  refine List.dvd_sum fun n hn => ?_
  obtain ⟨block, hblock, rfl⟩ := List.mem_map.mp hn
  exact h block hblock

/-- **The layout of a file**: its parts follow one another. -/
theorem blocks_laid (h : Inv st) (hlocals : st.localSymbols.length ≤ 2 ^ 31) :
    ∃ secs blocks, st.blocks = some blocks ∧ FileLaid st secs blocks := by
  obtain ⟨ws, hws⟩ := h.shape.drop
  obtain ⟨secs, hsecs, hlaid⟩ := @sectionBlocks_laid st ws predefSecCount
    (st.headersEnd + blocksLength (st.predefBlocks st.headersEnd)) _ hws fun sec hsec =>
      h.shape.isVirtual (List.mem_of_mem_drop hsec)
  have hblocks : st.blocks = some (st.predefBlocks st.headersEnd ++ secs ++
      st.shndxBlocks (st.headersEnd + blocksLength (st.predefBlocks st.headersEnd) + blocksLength secs)) := by
    rw [blocks, shndxBlocks]
    show ((st.sectionBlocks predefSecCount
      (st.headersEnd + blocksLength (st.predefBlocks st.headersEnd)) _).bind _) = _
    rw [hsecs, Option.bind_some]
    split
    · rfl
    · rename_i hfew
      rw [if_pos ((h.xindex hlocals).few (not_le.mp hfew)), List.append_nil]
      rfl
  have hlast (off : ℕ) : LaidOut off (contents (st.shndxBlocks off)) := by
    rw [shndxBlocks]
    split
    · exact shndxBlock_laidOut h hlocals off
    · trivial
  have hfront : LaidOut st.headersEnd (contents (st.predefBlocks st.headersEnd ++ secs)) := by
    rw [contents, List.map_append]
    refine (predefBlocks_laidOut st _).append ?_
    rw [length_contentBytes]
    exact hlaid.laidOut
  have hfile : LaidOut st.headersEnd (contents (st.predefBlocks st.headersEnd ++ secs ++
      st.shndxBlocks
        (st.headersEnd + blocksLength (st.predefBlocks st.headersEnd) + blocksLength secs))) := by
    rw [contents, List.map_append]
    refine hfront.append ?_
    rw [length_contentBytes]
    have hlen : blocksLength (st.predefBlocks st.headersEnd ++ secs) =
      blocksLength (st.predefBlocks st.headersEnd) + blocksLength secs := by
      rw [blocksLength, List.map_append, List.sum_append]
      rfl
    rw [hlen, ← Nat.add_assoc]
    exact hlast _
  have hpredef := predefBlocks_aligned st st.headersEnd
  have hend : 8 ∣ st.headersEnd := by
    rw [headersEnd]
    omega
  refine ⟨secs, _, hblocks, ⟨_, rfl⟩, ⟨_, hlaid⟩, hfile, fun block hblock => ?_⟩
  cases List.mem_append.mp hblock with
  | inl hmem =>
    refine hfront.aligned hend (fun c hc => ?_) (block.hdr, block.bytes) (List.mem_map.mpr ⟨block, hmem, rfl⟩)
    obtain ⟨block', hblock', rfl⟩ := List.mem_map.mp hc
    cases List.mem_append.mp hblock' with
    | inl hmem' => exact hpredef block' hmem'
    | inr hmem' => exact hlaid.aligned block' hmem'
  | inr hmem =>
    rw [shndxBlocks] at hmem
    split at hmem
    · cases List.mem_singleton.mp hmem
      exact (hend.add (dvd_blocksLength hpredef)).add (dvd_blocksLength hlaid.aligned)
    · cases hmem

end ElfState

end Tpde.Assembler
