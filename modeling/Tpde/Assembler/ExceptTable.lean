import Tpde.Library.Lsda
import Tpde.Util.Leb

/-!
# The exception tables of a function

The `except_*` functions of `AssemblerElf`: call sites and actions are collected while a
function is compiled, and `except_encode_func` then writes them to `.gcc_except_table`.
Between call sites the table is padded, so that every address of the function is in an
entry; the personality routine ends the program where there is none.
-/

namespace Tpde.Assembler

open Lsda Util

/-! ### The model -/

/-- `ExceptCallSiteInfo`; the start is an offset in the section. -/
structure ExceptCallSiteInfo where
  start : ℕ
  len : ℕ
  landingPadLabel : ℕ
  actionEntry : ℕ
  deriving DecidableEq

/-- The temporary storage for the current function. -/
structure ExceptState where
  callSiteTable : List ExceptCallSiteInfo
  actionTable : List UInt8
  typeInfoTable : List ℕ
  specTable : List UInt8
  deriving DecidableEq

namespace ExceptState

/-- `except_begin_func`; the action table starts with the cleanup entry. -/
def exceptBeginFunc : ExceptState := ⟨[], [0, 0], [], []⟩

/-- `except_add_call_site`. -/
def exceptAddCallSite (st : ExceptState) (textOff len landingPadLabel : ℕ) (isCleanup : Bool) : ExceptState :=
  { st with callSiteTable := st.callSiteTable ++
      [⟨textOff, len, landingPadLabel, if isCleanup then 0 else st.actionTable.length + 1⟩] }

/-- `except_add_cleanup_action`: the last link becomes one to the cleanup entry. -/
def exceptAddCleanupAction (st : ExceptState) : ExceptState :=
  let table := st.actionTable.dropLast
  { st with actionTable := table ++ slebWrite (-(table.length : ℤ)) }

/-- `except_action_table.back() = 1`, but for the first action. -/
def linkLast (st : ExceptState) (firstAction : Bool) : ExceptState :=
  if firstAction then st else { st with actionTable := st.actionTable.dropLast ++ [1] }

/-- The index of a type, which is added if it is new. An invalid symbol is a catch-all. -/
def typeInfoIdx (st : ExceptState) (typeSym : ℕ) : ExceptState × ℕ :=
  if typeSym = 0 then (st, 0)
  else if typeSym ∈ st.typeInfoTable then (st, st.typeInfoTable.idxOf typeSym + 1)
  else ({ st with typeInfoTable := st.typeInfoTable ++ [typeSym] }, st.typeInfoTable.length + 1)

/-- `except_add_action`. -/
def exceptAddAction (st : ExceptState) (firstAction : Bool) (typeSym : ℕ) : ExceptState :=
  let (st, idx) := (st.linkLast firstAction).typeInfoIdx typeSym
  { st with actionTable := st.actionTable ++ slebWrite ((idx : ℤ) + 1) ++ [0] }

/-- `except_add_empty_spec_action`; 127 is -1. -/
def exceptAddEmptySpecAction (st : ExceptState) (firstAction : Bool) : ExceptState :=
  let st := st.linkLast firstAction
  { st with
    specTable := if st.specTable = [] then [0, 0, 0, 0] else st.specTable
    actionTable := st.actionTable ++ [127, 0] }

/-- `except_type_idx_for_sym`, or none where it asserts. -/
def exceptTypeIdxForSym (st : ExceptState) (sym : ℕ) : Option ℕ :=
  if sym ∈ st.typeInfoTable then some (st.typeInfoTable.idxOf sym + 2) else none

section
variable (st : ExceptState) (fnStart fnEnd : ℕ) (labelOffsets : ℕ → ℕ)

/-- The four numbers of an entry. -/
def encodeEntry (e : Entry) : List UInt8 :=
  ulebWrite e.start ++ ulebWrite e.len ++ ulebWrite e.landingPad ++ ulebWrite e.action

/-- The entry of a call site. -/
def siteEntry (info : ExceptCallSiteInfo) : Entry :=
  ⟨info.start - fnStart, info.len, labelOffsets info.landingPadLabel - fnStart, info.actionEntry⟩

/-- A padding entry, if there is something to pad. -/
def padEntry (cur stop : ℕ) : List Entry := if cur < stop then [⟨cur - fnStart, stop - cur, 0, 0⟩] else []

/-- The loop over the call sites, with padding up to the end of the function. -/
def siteEntries : ℕ → List ExceptCallSiteInfo → List Entry
  | cur, [] => padEntry fnStart cur fnEnd
  | cur, info :: infos =>
    padEntry fnStart cur info.start ++ siteEntry fnStart labelOffsets info :: siteEntries
      (info.start + info.len) infos

/-- `except_encoded_call_sites`, with its two zero bytes at the end. -/
def encodedCallSites : List UInt8 :=
  (siteEntries fnStart fnEnd labelOffsets fnStart st.callSiteTable).flatMap encodeEntry ++ [0, 0]

/-- The header of the area. -/
def encodedHeader : List UInt8 :=
  let sites := st.encodedCallSites fnStart fnEnd labelOffsets
  [peOmit] ++
    (if st.actionTable = [] then [peOmit]
    else
      let classInfoOff := (st.typeInfoTable.length + 1) * 4 + st.actionTable.length +
        (sites.length + ulebLen sites.length + 1)
      [peType] ++ ulebWrite classInfoOff) ++
    [peUleb128] ++ ulebWrite sites.length

/-- The type table, with an entry for the catch-all; it is filled by relocations. -/
def encodedTypes : List UInt8 :=
  if st.actionTable = [] then [] else List.replicate ((st.typeInfoTable.length + 1) * 4) 0

/-- `except_encode_func`: what is appended to the table. -/
def exceptEncodeFunc : List UInt8 :=
  st.encodedHeader fnStart fnEnd labelOffsets ++ st.encodedCallSites fnStart fnEnd labelOffsets ++
    st.actionTable ++
    st.encodedTypes ++ if st.actionTable = [] then [] else st.specTable

/-- The relocations of the type table, as symbol and offset, for an area at `base`. Indices count
backwards from the end of the table. -/
def exceptRelocs (base : ℕ) : List (ℕ × ℕ) :=
  let size := base + (st.encodedHeader fnStart fnEnd labelOffsets).length +
    (st.encodedCallSites fnStart fnEnd labelOffsets).length + st.actionTable.length + st.encodedTypes.length
  if st.actionTable = [] then []
  else st.typeInfoTable.zipIdx.map fun x => (x.1, size - 8 - 4 * x.2)

end

end ExceptState

/-! ### The call-site table -/

open ExceptState

/-- What the callers guarantee: call sites are in the function, in increasing order, and the landing
pads' labels are placed in the function. -/
def SitesOk (fnEnd : ℕ) : ℕ → List ExceptCallSiteInfo → Prop
  | cur, [] => cur ≤ fnEnd
  | cur, info :: infos => cur ≤ info.start ∧ SitesOk fnEnd (info.start + info.len) infos

/-- An address of the section is in the call site. -/
def ExceptCallSiteInfo.Contains (info : ExceptCallSiteInfo) (ip : ℕ) : Prop :=
  info.start ≤ ip ∧ ip < info.start + info.len

theorem SitesOk.le {fnEnd : ℕ} : ∀ {cur : ℕ} {infos : List ExceptCallSiteInfo},
    SitesOk fnEnd cur infos → cur ≤ fnEnd
  | _, [], h => h
  | _, info :: _, h => by
    have h₁ := h.1
    have h₂ := h.2.le
    omega

theorem encodeEntry_isEntry (e : Entry) : IsEntry e (encodeEntry e) :=
  isEntry_of_uleb (ulebWrite_isUleb _) (ulebWrite_isUleb _) (ulebWrite_isUleb _) (ulebWrite_isUleb _)

section
variable {fnStart fnEnd : ℕ} {labelOffsets : ℕ → ℕ}

theorem padEntry_tiles {cur stop : ℕ} (h : fnStart ≤ cur) (h' : cur ≤ stop) :
    Tiles (cur - fnStart) (stop - fnStart) (padEntry fnStart cur stop) := by
  rw [padEntry]
  split
  · refine ⟨rfl, ?_⟩
    show cur - fnStart + (stop - cur) = stop - fnStart
    omega
  · show cur - fnStart = stop - fnStart
    omega

/-- The entries cover the function. -/
theorem siteEntries_tiles : ∀ {cur : ℕ} {infos : List ExceptCallSiteInfo}, fnStart ≤ cur →
    SitesOk fnEnd cur infos →
    Tiles (cur - fnStart) (fnEnd - fnStart) (siteEntries fnStart fnEnd labelOffsets cur infos)
  | _, [], h, hok => padEntry_tiles h hok
  | cur, info :: infos, h, hok => by
    have hstart := hok.1
    have hrest := siteEntries_tiles (by omega) hok.2
    rw [show info.start + info.len - fnStart = info.start - fnStart + info.len by omega] at hrest
    have hsite : Tiles (info.start - fnStart) (fnEnd - fnStart) (siteEntry fnStart labelOffsets info ::
        siteEntries fnStart fnEnd labelOffsets (info.start + info.len) infos) := ⟨rfl, hrest⟩
    exact hsite.append (padEntry_tiles h hok.1)

theorem SitesOk.le_start {info : ExceptCallSiteInfo} : ∀ {cur : ℕ} {infos : List ExceptCallSiteInfo},
    SitesOk fnEnd cur infos → info ∈ infos → cur ≤ info.start
  | _, [], _, hi => by cases hi
  | cur, info' :: infos, h, hi => by
    cases hi with
    | head => exact h.1
    | tail _ hi =>
      have h₁ := h.1
      have h₂ := h.2.le_start hi
      omega

theorem mem_padEntry {cur stop : ℕ} {e : Entry} (he : e ∈ padEntry fnStart cur stop) :
    cur < stop ∧ e = ⟨cur - fnStart, stop - cur, 0, 0⟩ := by
  rw [padEntry] at he
  split at he
  · exact ⟨by assumption, List.mem_singleton.mp he⟩
  · cases he

/-- An entry that covers an address is that of the call site which contains it, or padding. -/
theorem siteEntries_covers {ip : ℕ} (hip : fnStart ≤ ip) {e : Entry} (hcov : e.Covers (ip - fnStart)) :
    ∀ {cur : ℕ} {infos : List ExceptCallSiteInfo}, fnStart ≤ cur → SitesOk fnEnd cur infos →
      e ∈ siteEntries fnStart fnEnd labelOffsets cur infos →
      (∀ info ∈ infos, info.Contains ip → e = siteEntry fnStart labelOffsets info) ∧
        ((∀ info ∈ infos, ¬ info.Contains ip) → e.landingPad = 0 ∧ e.action = 0)
  | _, [], _, _, he => by
    obtain ⟨-, rfl⟩ := mem_padEntry he
    exact ⟨nofun, fun _ => ⟨rfl, rfl⟩⟩
  | cur, info :: infos, h, hok, he => by
    obtain ⟨hlow, hhigh⟩ := hcov
    have hstart := hok.1
    rcases List.mem_append.mp he with he | he
    · -- the padding in front of the call site
      obtain ⟨hlt, rfl⟩ := mem_padEntry he
      refine ⟨fun info' hi hc => ?_, fun _ => ⟨rfl, rfl⟩⟩
      have hle := (show SitesOk fnEnd info.start (info :: infos) from ⟨le_rfl, hok.2⟩).le_start hi
      have := hc.1
      simp only at hlow hhigh
      omega
    · cases he with
      | head =>
        have hin : info.Contains ip := by
          simp only [siteEntry] at hlow hhigh
          exact ⟨by omega, by omega⟩
        refine ⟨fun info' hi hc => ?_, fun hnone => absurd hin (hnone info List.mem_cons_self)⟩
        cases hi with
        | head => rfl
        | tail _ hi =>
          have h₁ := hok.2.le_start hi
          have h₂ := hin.2
          have h₃ := hc.1
          omega
      | tail _ he =>
        have hle := (siteEntries_tiles (by omega) hok.2).le_start he
        obtain ⟨ih₁, ih₂⟩ := siteEntries_covers hip ⟨hlow, hhigh⟩ (by omega) hok.2 he
        refine ⟨fun info' hi hc => ?_,
          fun hnone => ih₂ fun info' hi => hnone info' (List.mem_cons_of_mem _ hi)⟩
        cases hi with
        | head =>
          have := hc.2
          omega
        | tail _ hi => exact ih₁ info' hi hc

/-! ### The area -/

variable {st : ExceptState}

/-- **The header** is read back: the type table ends where it says, and the call sites are where it says. -/
theorem readHeader_encodedHeader (rest : List UInt8) :
    readHeader (st.encodedHeader fnStart fnEnd labelOffsets ++ rest) = some
      { typeBase :=
          if st.actionTable = [] then none
          else some ((st.encodedHeader fnStart fnEnd labelOffsets).length +
            (st.encodedCallSites fnStart fnEnd labelOffsets).length + st.actionTable.length +
            (st.encodedTypes).length)
        callSites := (st.encodedHeader fnStart fnEnd labelOffsets).length
        callSitesEnd := (st.encodedHeader fnStart fnEnd labelOffsets).length +
          (st.encodedCallSites fnStart fnEnd labelOffsets).length } := by
  have hsites := ulebWrite_isUleb (st.encodedCallSites fnStart fnEnd labelOffsets).length rest
  have hlen := length_ulebWrite (st.encodedCallSites fnStart fnEnd labelOffsets).length
  by_cases hempty : st.actionTable = []
  · simp only [encodedHeader, encodedTypes, hempty, if_true, readHeader, readCallSites,
      List.cons_append, List.nil_append,
      hsites, Option.map_some, List.length_append, List.length_cons, List.length_nil]
    congr 2 <;> omega
  · have hoff (rest : List UInt8) :=
      ulebWrite_isUleb ((st.typeInfoTable.length + 1) * 4 + st.actionTable.length +
      ((st.encodedCallSites fnStart fnEnd labelOffsets).length +
        ulebLen (st.encodedCallSites fnStart fnEnd labelOffsets).length + 1)) rest
    have htype : peType ≠ peOmit := by decide
    simp only [encodedHeader, encodedTypes, hempty, if_false, if_true, readHeader, readCallSites,
      List.cons_append,
      List.nil_append, List.append_assoc, htype, hoff, hsites, Option.bind_some, Option.map_some,
        List.length_append,
      List.length_cons, List.length_replicate]
    congr 2
    · congr 1
      omega
    · omega
    · omega

/-- What follows the header: call sites, actions, types and specifications. -/
theorem exceptEncodeFunc_parts (post : List UInt8) :
    st.exceptEncodeFunc fnStart fnEnd labelOffsets ++ post =
      st.encodedHeader fnStart fnEnd labelOffsets ++ (st.encodedCallSites fnStart fnEnd labelOffsets ++
        (st.actionTable ++
          (st.encodedTypes ++ ((if st.actionTable = [] then [] else st.specTable) ++ post)))) := by
  simp only [exceptEncodeFunc, List.append_assoc]

/-- What is asked of the area that starts at `data`: the header delimits the parts that follow it, and
the entry for an address of the function is that of the call site which contains it, or has no landing pad. -/
structure SitesRoundTrip (st : ExceptState) (fnStart fnEnd : ℕ) (labelOffsets : ℕ → ℕ)
    (lsda post : List UInt8) : Prop where
  header : ∃ hdr, readHeader lsda = some hdr ∧
    callSites hdr lsda = st.encodedCallSites fnStart fnEnd labelOffsets ∧
    (lsda.drop hdr.callSitesEnd).take st.actionTable.length = st.actionTable ∧
    ∀ base, hdr.typeBase = some base → lsda.drop base = st.specTable ++ post ∧
      base = hdr.callSitesEnd + st.actionTable.length + (st.typeInfoTable.length + 1) * 4
  site : ∀ info ∈ st.callSiteTable, ∀ ip, info.Contains ip → ∃ e, find lsda (ip - fnStart) = some e ∧
    e.landingPad ≠ 0 ∧ fnStart + e.landingPad = labelOffsets info.landingPadLabel ∧
      e.action = info.actionEntry
  gap : ∀ ip, fnStart ≤ ip → ip < fnEnd → (∀ info ∈ st.callSiteTable, ¬ info.Contains ip) →
    ∃ e, find lsda (ip - fnStart) = some e ∧ e.landingPad = 0 ∧ e.action = 0

theorem length_entries (es : List Entry) : es.length ≤ (es.flatMap encodeEntry).length := by
  induction es with
  | nil => exact le_rfl
  | cons e es ih =>
    have hpos : 0 < (encodeEntry e).length := by
      simp only [encodeEntry, List.length_append, length_ulebWrite]
      have : 0 < ulebLen e.start := by
        unfold ulebLen
        split <;> omega
      omega
    rw [List.flatMap_cons, List.length_append, List.length_cons]
    omega

/-- The call-site table is where the header says. -/
theorem callSites_encoded (post : List UInt8) {base : Option ℕ} :
    callSites ⟨base, (st.encodedHeader fnStart fnEnd labelOffsets).length,
      (st.encodedHeader fnStart fnEnd labelOffsets).length +
        (st.encodedCallSites fnStart fnEnd labelOffsets).length⟩
      (st.exceptEncodeFunc fnStart fnEnd labelOffsets ++ post) =
        st.encodedCallSites fnStart fnEnd labelOffsets := by
  rw [exceptEncodeFunc_parts, callSites, List.drop_left, Nat.add_sub_cancel_left, List.take_left]

/-- The search for an address of the function ends at an entry that covers it. -/
theorem find_encoded (hok : SitesOk fnEnd fnStart st.callSiteTable) {ip : ℕ} (hip : fnStart ≤ ip)
    (hip' : ip < fnEnd)
    (post : List UInt8) :
    ∃ e ∈ siteEntries fnStart fnEnd labelOffsets fnStart st.callSiteTable, e.Covers (ip - fnStart) ∧
      find (st.exceptEncodeFunc fnStart fnEnd labelOffsets ++ post) (ip - fnStart) = some e := by
  have htiles : Tiles (fnStart - fnStart) (fnEnd - fnStart)
      (siteEntries fnStart fnEnd labelOffsets fnStart st.callSiteTable) := siteEntries_tiles le_rfl hok
  have hlen := length_entries (siteEntries fnStart fnEnd labelOffsets fnStart st.callSiteTable)
  obtain ⟨e, he, hcov, hlook⟩ := lookup_tiles encodeEntry_isEntry [0, 0] htiles
    (show fnStart - fnStart ≤ ip - fnStart by omega) (show ip - fnStart < fnEnd - fnStart by omega)
    (show _ ≤ (st.encodedCallSites fnStart fnEnd labelOffsets).length by
      rw [encodedCallSites, List.length_append]
      omega)
  refine ⟨e, he, hcov, ?_⟩
  rw [find, exceptEncodeFunc_parts, readHeader_encodedHeader, Option.bind_some,
    ← exceptEncodeFunc_parts, callSites_encoded]
  exact hlook

/-- The entry for an address in a call site is the call site's. -/
theorem find_site (hok : SitesOk fnEnd fnStart st.callSiteTable) {info : ExceptCallSiteInfo}
    (hinfo : info ∈ st.callSiteTable) {ip : ℕ} (hin : info.Contains ip) (post : List UInt8) :
    find (st.exceptEncodeFunc fnStart fnEnd labelOffsets ++ post) (ip - fnStart) =
      some (siteEntry fnStart labelOffsets info) := by
  have hle : ∀ {cur : ℕ} {infos : List ExceptCallSiteInfo}, SitesOk fnEnd cur infos → info ∈ infos →
      info.start + info.len ≤ fnEnd := by
    intro cur infos
    induction infos generalizing cur with
    | nil => exact fun _ hi => by cases hi
    | cons i infos ih =>
      intro h hi
      cases hi with
      | head => exact h.2.le
      | tail _ hi => exact ih h.2 hi
  have hstart := hok.le_start hinfo
  have hstop := hle hok hinfo
  obtain ⟨h₁, h₂⟩ := hin
  obtain ⟨e, he, hcov, hfind⟩ := @find_encoded _ _ labelOffsets _ hok ip (by omega) (by omega) post
  rw [hfind, (siteEntries_covers (by omega) hcov le_rfl hok he).1 info hinfo ⟨h₁, h₂⟩]

/-- **The call-site table** of a function is read back, whatever is in the section before and behind it. -/
theorem callSites_roundTrip (hok : SitesOk fnEnd fnStart st.callSiteTable)
    (hlabels : ∀ info ∈ st.callSiteTable, fnStart < labelOffsets info.landingPadLabel)
    (data post : List UInt8) :
    SitesRoundTrip st fnStart fnEnd labelOffsets
      ((data ++ st.exceptEncodeFunc fnStart fnEnd labelOffsets ++ post).drop data.length) post := by
  rw [List.append_assoc, List.drop_left]
  refine ⟨⟨_, by rw [exceptEncodeFunc_parts, readHeader_encodedHeader], callSites_encoded post, ?_, ?_⟩,
    ?_, ?_⟩
  · rw [exceptEncodeFunc_parts, ← List.append_assoc, ← List.length_append, List.drop_left, List.take_left]
  · intro base hbase
    split at hbase
    · cases hbase
    · rename_i hne
      obtain rfl := Option.some.inj hbase
      rw [exceptEncodeFunc_parts, if_neg hne]
      constructor
      · rw [← List.append_assoc, ← List.append_assoc, ← List.append_assoc, ← List.length_append,
          ← List.length_append,
          ← List.length_append, List.drop_left]
      · rw [encodedTypes, if_neg hne, List.length_replicate]
  · intro info hinfo ip hin
    have hlabel := hlabels info hinfo
    refine ⟨_, find_site hok hinfo hin post, ?_, ?_, rfl⟩
    · show labelOffsets info.landingPadLabel - fnStart ≠ 0
      omega
    · show fnStart + (labelOffsets info.landingPadLabel - fnStart) = labelOffsets info.landingPadLabel
      omega
  · intro ip hip hip' hnone
    obtain ⟨e, he, hcov, hfind⟩ := find_encoded hok hip hip' post
    exact ⟨e, hfind, (siteEntries_covers hip hcov le_rfl hok he).2 hnone⟩

/-- A function from 16 to 80 with two call sites, the second one for a cleanup. -/
theorem callSites_roundTrip_two :
    SitesRoundTrip ⟨[⟨20, 4, 0, 3⟩, ⟨24, 6, 1, 0⟩], [0, 0, 2, 0], [7], []⟩ 16 80 (fun l => 60 + 10 * l)
      (([1, 2, 3] ++ exceptEncodeFunc ⟨[⟨20, 4, 0, 3⟩, ⟨24, 6, 1, 0⟩], [0, 0, 2, 0], [7], []⟩ 16 80
        (fun l => 60 + 10 * l) ++ [9]).drop 3) [9] :=
  callSites_roundTrip (by simp [SitesOk]) (by simp) [1, 2, 3] [9]

end

end Tpde.Assembler
