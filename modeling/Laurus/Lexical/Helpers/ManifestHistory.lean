import Laurus.Common.Run
import Laurus.Lexical.Helpers.SegmentManifest

/-!
# What an index keeps of its manifests, call by call

A `History` is what a run has saved, what may be on storage, and what it has
handed out. `ManifestInvariant` ties it to the index: the entries in memory are
the ones last saved or found, each is listed once and named after its
generation, and all that is in use is numbered below the counter.
-/

namespace Laurus

open segment_manifest IndexFiles

/-! ## Calls on an index -/

/-- A call that reserves, publishes or replaces segments, with the faults it
meets. -/
inductive ManifestCall
  | reserve_generation
  | flush_segment (info : SegmentInfo) (parts : List (String × Bytes)) (fault : Option LaurusError)
  | publish_pending_segments (fault : Option ManifestFault)
  | flush_deletions (bitmaps : List (String × String × Bytes))
      (counts : List (String × Option UInt64)) (bitmap_fault : Option LaurusError)
      (fault : Option ManifestFault)
  | rollback (fault : Option ManifestFault) (undeleted : List String)
      (delete_fault : Option LaurusError)
  | merge_segment_set_bounded (sources : List String) (outputs : List SegmentInfo)
      (parts : List (ℕ × String × Bytes)) (engine_fault : Option LaurusError)
      (fault : Option ManifestFault) (undeleted : List String) (delete_fault : Option LaurusError)
  | rebuild_field (outputs : List SegmentInfo) (parts : List (ℕ × String × Bytes))
      (engine_fault : Option LaurusError) (fault : Option ManifestFault) (undeleted : List String)
  | reopen (recount : SegmentInfo → Option UInt64) (undeleted : List String)

/-- What a call does. -/
def ManifestCall.run (codec : ManifestCodec) (files : IndexFiles) :
    ManifestCall → Report × IndexFiles
  | reserve_generation => files.reserve
  | flush_segment info parts fault => files.flush_segment info parts fault
  | publish_pending_segments fault => files.publish_pending_segments codec fault
  | flush_deletions bitmaps counts bitmap_fault fault =>
    files.flush_deletions codec bitmaps counts bitmap_fault fault
  | rollback fault undeleted delete_fault => files.rollback codec fault undeleted delete_fault
  | merge_segment_set_bounded sources outputs parts engine_fault fault undeleted delete_fault =>
    files.merge_segment_set_bounded codec sources outputs parts engine_fault fault undeleted
      delete_fault
  | rebuild_field outputs parts engine_fault fault undeleted =>
    files.rebuild_field codec outputs parts engine_fault fault undeleted
  | reopen recount undeleted => files.reopen codec recount undeleted

/-- A step of an index, labelled by the call and what it reports. -/
def ManifestStep (codec : ManifestCodec) : Step IndexFiles (ManifestCall × Report) :=
  fun files label files' => label.1.run codec files = (label.2, files')

/-- How many generations a call hands out, at most. -/
def ManifestCall.generations (files : IndexFiles) : ManifestCall → ℕ
  | reserve_generation => 1
  | flush_segment _ _ _ => 1
  | merge_segment_set_bounded sources _ _ _ _ _ _ => sources.length
  | rebuild_field _ _ _ _ _ => files.manifest.segments.length
  | _ => 0

/-- A segment that an index knows: it is listed, to be published, or has files. -/
def IndexFiles.Knows (files : IndexFiles) (segment_id : String) : Prop :=
  (∃ info ∈ files.manifest.segments ++ files.pending_publish, info.segment_id = segment_id) ∨
    ∃ file ∈ files.storage.keys, (stem_ordinal file).isSome ∧
      stem_ordinal file = stem_ordinal segment_id

/-- The segments that a call writes bitmaps of, or replaces, are ones that the
index knows. -/
def ManifestCall.SegmentsKnown (files : IndexFiles) : ManifestCall → Prop
  | flush_deletions bitmaps _ _ _ => ∀ bitmap ∈ bitmaps, files.Knows bitmap.1
  | merge_segment_set_bounded sources _ _ _ _ _ _ => ∀ source ∈ sources, files.Knows source
  | _ => True

/-- The calls on segments that the index knows, and that the counter of
generations does not run over in. -/
def Counted (files : IndexFiles) (label : ManifestCall × Report) : Prop :=
  files.manifest.next_generation.toNat + label.1.generations files < 2 ^ 64 ∧
    label.1.SegmentsKnown files

/-! ## What has happened -/

/-- What a run has done: the manifest last saved, or found on opening; those
that may be on storage, which are the one last saved or found and those of saves
that failed since; and the generations handed out since the index was opened. -/
structure History where
  saved : List SegmentInfo
  stored : List (List SegmentInfo)
  handed : List UInt64

/-- The history of an index that is created. -/
def History.created : History := { saved := [], stored := [[]], handed := [] }

/-- A manifest is saved, or fails to be. -/
def History.save (history : History) (save : List SegmentInfo × Except LaurusError Unit) : History :=
  match save.2 with
  | .ok () => { history with saved := save.1, stored := [save.1] }
  | .error _ => { history with stored := save.1 :: history.stored }

/-- What a call reports. -/
def History.report (history : History) (report : Report) : History :=
  report.saves.foldl History.save { history with handed := history.handed ++ report.handed }

/-- The history after a call: opening starts anew from what it finds. -/
def History.after (history : History) (label : ManifestCall × Report) : History :=
  match label.1, label.2.loaded with
  | .reopen recount _, some found =>
    { saved := recount_unrecorded_deletions recount found, stored := [found], handed := [] }
  | _, _ => history.report label.2

/-- What an index keeps of its history. -/
structure ManifestInvariant (codec : ManifestCodec) (history : History) (files : IndexFiles) :
    Prop where
  saved : files.manifest.segments = history.saved
  stored : ∃ segments ∈ history.stored, Stored codec files.storage segments
  listed : Listed files.manifest.next_generation files.manifest.segments
  stored_listed : ∀ list ∈ history.stored, Listed files.manifest.next_generation list
  pending : Listed files.manifest.next_generation files.pending_publish
  files_below : ∀ file ∈ files.storage.keys, ∀ ordinal, stem_ordinal file = some ordinal →
    ordinal < files.manifest.next_generation
  handed_below : ∀ g ∈ history.handed, g < files.manifest.next_generation
  handed_once : history.handed.Nodup

variable {codec : ManifestCodec} {history : History} {files : IndexFiles}

theorem reopen_of_stored {found : List SegmentInfo} (hstored : Stored codec files.storage found)
    (recount : SegmentInfo → Option UInt64) (undeleted : List String) :
    files.reopen codec recount undeleted =
      ({ handed := [], saves := [], loaded := some found, result := .ok () }, {
        storage := sweep_orphans files.storage (recount_unrecorded_deletions recount found)
          files.storage.keys undeleted
        manifest := {
          segments := recount_unrecorded_deletions recount found
          next_generation := derive_next_generation (recount_unrecorded_deletions recount found)
            files.storage.keys }
        pending_publish := [] }) := by
  unfold IndexFiles.reopen «open»
  rw [hstored]
  rfl

namespace ManifestInvariant

theorem write (h : ManifestInvariant codec history files) {parts : List (String × Bytes)}
    (hparts : ∀ part ∈ parts, ∃ ordinal, stem_ordinal part.1 = some ordinal ∧
      ordinal < files.manifest.next_generation) :
    ManifestInvariant codec history { files with storage := write_files files.storage parts } where
  saved := h.saved
  stored := by
    obtain ⟨segments, hmem, hstored⟩ := h.stored
    refine ⟨segments, hmem, (load_congr (lookup_write_files fun part hpart heq => ?_)).trans hstored⟩
    grind [stem_ordinal_manifest]
  listed := h.listed
  stored_listed := h.stored_listed
  pending := h.pending
  files_below := fun file hfile ordinal hordinal => by
    rcases mem_keys_write_files hfile with hold | ⟨part, hpart, rfl⟩
    · exact h.files_below file hold ordinal hordinal
    grind
  handed_below := h.handed_below
  handed_once := h.handed_once

theorem erase (h : ManifestInvariant codec history files) {names : List String}
    (hnames : MANIFEST_FILE ∉ names) :
    ManifestInvariant codec history { files with storage := erase_files files.storage names } where
  saved := h.saved
  stored := by
    obtain ⟨segments, hmem, hstored⟩ := h.stored
    exact ⟨segments, hmem, (load_congr (lookup_erase_files hnames)).trans hstored⟩
  listed := h.listed
  stored_listed := h.stored_listed
  pending := h.pending
  files_below := fun file hfile => h.files_below file (mem_keys_erase_files hfile)
  handed_below := h.handed_below
  handed_once := h.handed_once

theorem with_pending (h : ManifestInvariant codec history files) {pending : List SegmentInfo}
    (hpending : Listed files.manifest.next_generation pending) :
    ManifestInvariant codec history { files with pending_publish := pending } :=
  { h with pending := hpending }

theorem reserve_each (h : ManifestInvariant codec history files) {n : ℕ}
    (hroom : files.manifest.next_generation.toNat + n < 2 ^ 64) :
    ManifestInvariant codec
      { history with handed := history.handed ++ (files.reserve_each n).1 }
      (files.reserve_each n).2 := by
  obtain ⟨hrange, hnodup, hcount, heq⟩ := reserve_each_spec files hroom
  have hle : files.manifest.next_generation ≤ (files.reserve_each n).2.manifest.next_generation :=
    UInt64.le_iff_toNat_le.2 (by omega)
  rw [heq]
  refine ⟨h.saved, h.stored, h.listed.mono hle, fun list hlist => (h.stored_listed list hlist).mono hle,
    h.pending.mono hle, fun file hfile ordinal hordinal => ?_, fun g hg => ?_, ?_⟩
  · exact UInt64.lt_of_lt_of_le (h.files_below file hfile ordinal hordinal) hle
  · grind [handed_below]
  · rw [List.nodup_append]
    refine ⟨h.handed_once, hnodup, ?_⟩
    rintro old hold g hnew rfl
    exact absurd (UInt64.lt_of_lt_of_le (h.handed_below old hold) (hrange old hnew).1)
      (UInt64.lt_irrefl _)

theorem publish (hcodec : codec.Lawful) (h : ManifestInvariant codec history files)
    (mutate : List SegmentInfo → List SegmentInfo)
    (hlisted : Listed files.manifest.next_generation (mutate files.manifest.segments))
    (fault : Option ManifestFault) :
    let out := files.publish codec mutate fault
    ManifestInvariant codec (history.report out.1) out.2 ∧
      out.1.handed = [] ∧ out.1.loaded = none ∧ out.2.pending_publish = files.pending_publish ∧
      out.2.manifest.next_generation = files.manifest.next_generation := by
  intro out
  have hout : Published codec files (mutate files.manifest.segments) out :=
    publish_spec hcodec files mutate fault
  have hfiles : ∀ {storage : Storage}, KeysFrom MANIFEST_FILE files.storage storage →
      ∀ file ∈ storage.keys, ∀ ordinal, stem_ordinal file = some ordinal →
        ordinal < files.manifest.next_generation := by
    intro storage hkeys file hfile ordinal hordinal
    rcases hkeys file hfile with hold | rfl | rfl
    · exact h.files_below file hold ordinal hordinal
    · rw [stem_ordinal_manifest] at hordinal
      cases hordinal
    · rw [stem_ordinal_manifest_tmp] at hordinal
      cases hordinal
  have hhanded : history.handed ++ [] = history.handed := List.append_nil _
  clear_value out
  cases hout with
  | saved hstored hkeys =>
      refine ⟨⟨rfl, ⟨_, List.mem_singleton.2 rfl, hstored⟩, hlisted, fun list hlist => ?_, h.pending,
        hfiles hkeys, ?_, ?_⟩, rfl, rfl, rfl, rfl⟩
      · rw [List.mem_singleton.1 hlist]
        exact hlisted
      · exact fun g hg => h.handed_below g (hhanded ▸ hg)
      · show (history.handed ++ []).Nodup
        rw [hhanded]
        exact h.handed_once
  | failed e hstored hkeys =>
      refine ⟨⟨h.saved, ?_, h.listed, fun list hlist => ?_, h.pending, hfiles hkeys, ?_, ?_⟩,
        rfl, rfl, rfl, rfl⟩
      · obtain ⟨segments, hmem, hold⟩ := h.stored
        rcases hstored with hleft | hnew
        · exact ⟨segments, List.mem_cons_of_mem _ hmem, hleft.trans hold⟩
        · exact ⟨_, List.mem_cons_self, hnew⟩
      · rcases List.mem_cons.1 hlist with rfl | hold
        · exact hlisted
        · exact h.stored_listed list hold
      · exact fun g hg => h.handed_below g (hhanded ▸ hg)
      · show (history.handed ++ []).Nodup
        rw [hhanded]
        exact h.handed_once

theorem ordinal_of_known (h : ManifestInvariant codec history files) {segment_id : String}
    (hknown : files.Knows segment_id) :
    ∃ ordinal, stem_ordinal segment_id = some ordinal ∧
      ordinal < files.manifest.next_generation := by
  rcases hknown with ⟨info, hmem, rfl⟩ | ⟨file, hfile, hsome, hsame⟩
  · rcases List.mem_append.1 hmem with hlisted | hpending
    · exact ⟨_, h.listed.named info hlisted, h.listed.below info hlisted⟩
    · exact ⟨_, h.pending.named info hpending, h.pending.below info hpending⟩
  grind [Option.isSome_iff_exists, files_below]

theorem delete_segments (h : ManifestInvariant codec history files) {segment_ids : List String}
    (hnamed : ∀ segment_id ∈ segment_ids, (stem_ordinal segment_id).isSome)
    (undeleted : List String) :
    ManifestInvariant codec history { files with
      storage := delete_segment_files files.storage segment_ids undeleted } := by
  refine h.erase fun hmem => ?_
  grind [stem_ordinal_of_file, stem_ordinal_manifest]

theorem publish_and_delete (hcodec : codec.Lawful) (h : ManifestInvariant codec history files)
    (mutate : List SegmentInfo → List SegmentInfo)
    (hlisted : Listed files.manifest.next_generation (mutate files.manifest.segments))
    (fault : Option ManifestFault) {segment_ids : List String}
    (hnamed : ∀ segment_id ∈ segment_ids, (stem_ordinal segment_id).isSome)
    (undeleted : List String) (delete_fault : Option LaurusError) :
    let out := files.publish_and_delete codec mutate fault segment_ids undeleted delete_fault
    ManifestInvariant codec (history.report out.1) out.2 ∧ out.1.handed = [] ∧
      out.1.loaded = none := by
  obtain ⟨hinv, hhanded, hloaded, -, -⟩ := h.publish hcodec mutate hlisted fault
  unfold IndexFiles.publish_and_delete
  dsimp only at hinv ⊢
  split
  · exact ⟨hinv, hhanded, hloaded⟩
  · have hdeleted := hinv.delete_segments hnamed undeleted
    split
    · exact ⟨hdeleted, hhanded, hloaded⟩
    grind

/-! ## What each call keeps -/

theorem report_of (h : ManifestInvariant codec history files) (result : Except Fault Unit) :
    ManifestInvariant codec (history.report (.of result)) files := by
  have hsame : history.report (.of result) = history := by
    show { history with handed := history.handed ++ [] } = history
    rw [List.append_nil]
  rw [hsame]
  exact h

theorem reserve (h : ManifestInvariant codec history files)
    (hroom : files.manifest.next_generation.toNat + 1 < 2 ^ 64) (result : Except Fault Unit) :
    ManifestInvariant codec (history.report { files.reserve.1 with result }) files.reserve.2 :=
  h.reserve_each hroom

theorem flush_segment (h : ManifestInvariant codec history files)
    (hroom : files.manifest.next_generation.toNat + 1 < 2 ^ 64) (info : SegmentInfo)
    (parts : List (String × Bytes)) (fault : Option LaurusError) :
    let out := files.flush_segment info parts fault
    ManifestInvariant codec (history.report out.1) out.2 := by
  obtain ⟨hrange, -, -, -⟩ := reserve_each_spec files hroom
  have hbelow := (hrange files.manifest.next_generation List.mem_cons_self).2
  set named := parts.map fun part =>
    (file_of_segment (segment_name files.manifest.next_generation) part.1, part.2) with hnamed
  have hwritten : ∀ result, ManifestInvariant codec (history.report { files.reserve.1 with result })
      { files.reserve.2 with storage := write_files files.reserve.2.storage named } := by
    intro result
    refine (h.reserve hroom result).write fun part hpart => ?_
    obtain ⟨old, -, rfl⟩ := List.mem_map.1 hpart
    refine ⟨files.manifest.next_generation, ?_, hbelow⟩
    rw [stem_ordinal_file_of_segment, stem_ordinal_segment_name]
  dsimp only
  cases fault with
  | some e => exact hwritten _
  | none =>
      refine (hwritten (.ok ())).with_pending ?_
      have hpending : Listed files.reserve.2.manifest.next_generation files.pending_publish :=
        h.pending.mono (UInt64.le_of_lt hbelow)
      refine hpending.append (stem_ordinal_segment_name _) hbelow fun old hold hsame => ?_
      -- what is pending is numbered below what is handed out
      have hnamed := h.pending.named old hold
      rw [hsame, stem_ordinal_segment_name] at hnamed
      have hlt := h.pending.below old hold
      grind

theorem publish_pending_segments (hcodec : codec.Lawful)
    (h : ManifestInvariant codec history files) (fault : Option ManifestFault) :
    let out := files.publish_pending_segments codec fault
    ManifestInvariant codec (history.report out.1) out.2 := by
  have hlisted : Listed files.manifest.next_generation
      (files.pending_publish.foldl upsert_entry files.manifest.segments) :=
    h.listed.upserts fun info hinfo => ⟨h.pending.named info hinfo, h.pending.below info hinfo⟩
  obtain ⟨hinv, -, -, -, hnext⟩ :=
    h.publish hcodec (files.pending_publish.foldl upsert_entry) hlisted fault
  grind [IndexFiles.publish_pending_segments, report_of, with_pending, Listed.nil]

theorem flush_deletions (hcodec : codec.Lawful) (h : ManifestInvariant codec history files)
    {bitmaps : List (String × String × Bytes)} (hknown : ∀ bitmap ∈ bitmaps, files.Knows bitmap.1)
    (counts : List (String × Option UInt64)) (bitmap_fault : Option LaurusError)
    (fault : Option ManifestFault) :
    let out := files.flush_deletions codec bitmaps counts bitmap_fault fault
    ManifestInvariant codec (history.report out.1) out.2 := by
  have hwritten : ManifestInvariant codec history { files with
      storage := write_files files.storage
        (bitmaps.map fun bitmap => (file_of_segment bitmap.1 bitmap.2.1, bitmap.2.2)) } := by
    grind [write, stem_ordinal_file_of_segment, ordinal_of_known]
  obtain ⟨hinv, -, -, -, hnext⟩ :=
    hwritten.publish hcodec (counts.foldl flip_entry) (hwritten.listed.flips counts) fault
  unfold IndexFiles.flush_deletions
  dsimp only at hinv hnext ⊢
  split
  · exact hwritten.report_of _
  · split
    · exact hwritten.report_of _
    · split
      · exact hinv
      · refine hinv.with_pending ?_
        rw [hnext]
        exact h.pending.flips counts

theorem rollback (hcodec : codec.Lawful) (h : ManifestInvariant codec history files)
    (fault : Option ManifestFault) (undeleted : List String) (delete_fault : Option LaurusError) :
    let out := files.rollback codec fault undeleted delete_fault
    ManifestInvariant codec (history.report out.1) out.2 := by
  have hempty := h.with_pending (Listed.nil files.manifest.next_generation)
  have hnamed : ∀ segment_id ∈ files.pending_publish.map SegmentInfo.segment_id,
      (stem_ordinal segment_id).isSome := by
    intro segment_id hmem
    obtain ⟨info, hinfo, rfl⟩ := List.mem_map.1 hmem
    rw [h.pending.named info hinfo]
    rfl
  grind [IndexFiles.rollback, report_of, publish_and_delete, listed]

theorem report_handed {report : Report} (hnone : report.handed = []) (generations : List UInt64) :
    history.report { report with handed := generations } =
      { history with handed := history.handed ++ generations }.report report := by
  unfold History.report
  rw [hnone, List.append_nil]

theorem rewrite_segments (hcodec : codec.Lawful) (h : ManifestInvariant codec history files)
    {sources : List String} (hroom : files.manifest.next_generation.toNat + sources.length < 2 ^ 64)
    (hknown : ∀ source ∈ sources, files.Knows source) (outputs : List SegmentInfo)
    (parts : List (ℕ × String × Bytes)) (engine_fault : Option LaurusError)
    (fault : Option ManifestFault) (undeleted : List String) (delete_fault : Option LaurusError) :
    let out := files.rewrite_segments codec sources outputs parts engine_fault fault undeleted
      delete_fault
    ManifestInvariant codec (history.report out.1) out.2 := by
  obtain ⟨hrange, -, -, heq⟩ := reserve_each_spec files hroom
  have hreserved := h.reserve_each hroom
  have hnamed : ∀ source ∈ sources, (stem_ordinal source).isSome := by
    grind [ordinal_of_known]
  have hids : ∀ segment_id ∈ (files.reserve_each sources.length).1.map merged_name,
      ∃ ordinal, stem_ordinal segment_id = some ordinal ∧
        ordinal < (files.reserve_each sources.length).2.manifest.next_generation := by
    grind [stem_ordinal_merged_name]
  have hstorage : (files.reserve_each sources.length).2.storage = files.storage := by grind
  unfold IndexFiles.rewrite_segments
  dsimp only
  set reserved := files.reserve_each sources.length
  set written := parts.filterMap fun part => (reserved.1.map merged_name)[part.1]?.map
    fun segment_id => (file_of_segment segment_id part.2.1, part.2.2) with hwritten
  have hparts : ∀ part ∈ written, ∃ ordinal, stem_ordinal part.1 = some ordinal ∧
      ordinal < reserved.2.manifest.next_generation := by
    intro part hpart
    obtain ⟨old, -, hsome⟩ := List.mem_filterMap.1 hpart
    obtain ⟨segment_id, hid, rfl⟩ := Option.map_eq_some_iff.1 hsome
    rw [stem_ordinal_file_of_segment]
    exact hids segment_id (List.mem_of_getElem? hid)
  have hfiles := hreserved.write hparts
  rw [hstorage] at hfiles
  split
  · rw [report_handed rfl]
    exact hfiles.report_of _
  · have hlisted : Listed reserved.2.manifest.next_generation (replace_segments sources
        (List.zipWith output_info outputs (reserved.1.map merged_name))
        reserved.2.manifest.segments) := by
      refine (hfiles.listed.filter _).upserts fun info hinfo => ?_
      obtain ⟨i, hi⟩ := List.mem_iff_getElem?.1 hinfo
      obtain ⟨output, segment_id, -, hid, rfl⟩ := List.getElem?_zipWith_eq_some.1 hi
      obtain ⟨ordinal, hordinal, hbelow⟩ := hids segment_id (List.mem_of_getElem? hid)
      unfold output_info
      grind
    grind [publish_and_delete, report_handed]

theorem merge_segment_set_bounded (hcodec : codec.Lawful)
    (h : ManifestInvariant codec history files) {sources : List String}
    (hroom : files.manifest.next_generation.toNat + sources.length < 2 ^ 64)
    (hknown : ∀ source ∈ sources, files.Knows source) (outputs : List SegmentInfo)
    (parts : List (ℕ × String × Bytes)) (engine_fault : Option LaurusError)
    (fault : Option ManifestFault) (undeleted : List String) (delete_fault : Option LaurusError) :
    let out := files.merge_segment_set_bounded codec sources outputs parts engine_fault fault
      undeleted delete_fault
    ManifestInvariant codec (history.report out.1) out.2 := by
  grind [IndexFiles.merge_segment_set_bounded, report_of, rewrite_segments]

theorem rebuild_field (hcodec : codec.Lawful) (h : ManifestInvariant codec history files)
    (hroom : files.manifest.next_generation.toNat + files.manifest.segments.length < 2 ^ 64)
    (outputs : List SegmentInfo) (parts : List (ℕ × String × Bytes))
    (engine_fault : Option LaurusError) (fault : Option ManifestFault) (undeleted : List String) :
    let out := files.rebuild_field codec outputs parts engine_fault fault undeleted
    ManifestInvariant codec (history.report out.1) out.2 := by
  have hknown : ∀ source ∈ files.manifest.segments.map SegmentInfo.segment_id,
      files.Knows source := by
    intro source hmem
    obtain ⟨info, hinfo, rfl⟩ := List.mem_map.1 hmem
    exact Or.inl ⟨info, List.mem_append_left _ hinfo, rfl⟩
  grind [IndexFiles.rebuild_field, report_of, rewrite_segments]

/-- **An index opens**, and lists what the manifest on storage does. -/
theorem reopen (h : ManifestInvariant codec history files)
    (recount : SegmentInfo → Option UInt64) (undeleted : List String) :
    ∃ found ∈ history.stored, Stored codec files.storage found ∧
      (files.reopen codec recount undeleted).1 =
        { handed := [], saves := [], loaded := some found, result := .ok () } ∧
      ManifestInvariant codec
        { saved := recount_unrecorded_deletions recount found, stored := [found], handed := [] }
        (files.reopen codec recount undeleted).2 := by
  obtain ⟨found, hmem, hstored⟩ := h.stored
  refine ⟨found, hmem, hstored, ?_⟩
  have hfound := h.stored_listed found hmem
  set segments := recount_unrecorded_deletions recount found with hsegments
  set next := derive_next_generation segments files.storage.keys with hnext
  have hrecounted : Listed files.manifest.next_generation segments := hfound.recounted recount
  have hbelow : ∀ info ∈ segments, info.generation < next := fun info hinfo =>
    lt_derive_of_entry hinfo (ne_max_of_lt (hrecounted.below info hinfo))
  have hlisted : Listed next segments := ⟨hrecounted.named, hbelow, hrecounted.once⟩
  have hmanifest : MANIFEST_FILE ∉ files.storage.keys.filter
      fun file => is_orphan segments file ∧ file ∉ undeleted := by
    intro hin
    have horphan := (of_decide_eq_true (List.mem_filter.1 hin).2).1
    have hcases := of_decide_eq_true horphan
    rcases hcases with hname | ⟨hsome, -⟩
    · exact absurd hname (by decide)
    · cases hsome
  rw [reopen_of_stored hstored]
  refine ⟨rfl, rfl, ⟨found, List.mem_singleton.2 rfl, ?_⟩, hlisted, fun list hlist => ?_,
    Listed.nil _, fun file hfile ordinal hordinal => ?_, fun g hg => absurd hg List.not_mem_nil,
    List.nodup_nil⟩
  · exact (load_congr (lookup_erase_files hmanifest)).trans hstored
  · rw [List.mem_singleton.1 hlist]
    refine ⟨hfound.named, fun info hinfo => ?_, hfound.once⟩
    -- recounting leaves the generations as they are
    have hin : name_and_generation info ∈ segments.map name_and_generation := by
      rw [hsegments, recounted_names]
      exact List.mem_map_of_mem hinfo
    obtain ⟨same, hsame, heq⟩ := List.mem_map.1 hin
    rw [← show same.generation = info.generation from congrArg Prod.snd heq]
    exact hbelow same hsame
  · have hold : file ∈ files.storage.keys := mem_keys_erase_files hfile
    exact lt_derive_of_file hold hordinal (ne_max_of_lt (h.files_below file hold ordinal hordinal))

end ManifestInvariant

/-! ## Runs -/

theorem create_spec (hcodec : codec.Lawful) {storage : Storage}
    (hnone : ∀ file ∈ storage.keys, stem_ordinal file = none)
    (hcreate : create codec storage = .ok files) :
    files.manifest = { segments := [], next_generation := 0 } ∧ files.pending_publish = [] ∧
      Stored codec files.storage [] ∧ ∀ file ∈ files.storage.keys, stem_ordinal file = none := by
  unfold create at hcreate
  generalize hout : save codec storage [] none = out at hcreate
  have hsaved := save_spec hcodec storage [] none
  rw [hout] at hsaved
  cases hsaved with
  | failed e hstored hkeys => cases hcreate
  | saved hstored hkeys =>
      cases hcreate
      refine ⟨rfl, rfl, hstored, fun file hfile => ?_⟩
      rcases hkeys file hfile with hold | rfl | rfl
      · exact hnone file hold
      · exact stem_ordinal_manifest
      · exact stem_ordinal_manifest_tmp

theorem manifestInvariant_create (hcodec : codec.Lawful) {storage : Storage}
    (hnone : ∀ file ∈ storage.keys, stem_ordinal file = none)
    (hcreate : create codec storage = .ok files) :
    ManifestInvariant codec History.created files := by
  obtain ⟨hmanifest, hpending, hstored, hfiles⟩ := create_spec hcodec hnone hcreate
  refine ⟨?_, ⟨[], List.mem_singleton.2 rfl, hstored⟩, ?_, fun list hlist => ?_, ?_,
    fun file hfile ordinal hordinal => ?_, fun g hg => absurd hg List.not_mem_nil, List.nodup_nil⟩
  · rw [hmanifest]
    rfl
  · rw [hmanifest]
    exact Listed.nil _
  · rw [List.mem_singleton.1 hlist]
    exact Listed.nil _
  · rw [hpending]
    exact Listed.nil _
  grind

/-- **A call keeps the invariant.** -/
theorem manifestInvariant_step (hcodec : codec.Lawful) {label : ManifestCall × Report}
    {files' : IndexFiles} (h : ManifestInvariant codec history files) (hcounted : Counted files label)
    (hstep : ManifestStep codec files label files') :
    ManifestInvariant codec (history.after label) files' := by
  obtain ⟨call, report⟩ := label
  obtain ⟨hroom, hknown⟩ := hcounted
  have hreport := congrArg Prod.fst hstep
  have hfiles := congrArg Prod.snd hstep
  dsimp only at hroom hknown hreport hfiles
  subst hreport hfiles
  cases call with
  | reserve_generation => exact h.reserve hroom _
  | flush_segment info parts fault => exact h.flush_segment hroom info parts fault
  | publish_pending_segments fault => exact h.publish_pending_segments hcodec fault
  | flush_deletions bitmaps counts bitmap_fault fault =>
      exact h.flush_deletions hcodec hknown counts bitmap_fault fault
  | rollback fault undeleted delete_fault => exact h.rollback hcodec fault undeleted delete_fault
  | merge_segment_set_bounded sources outputs parts engine_fault fault undeleted delete_fault =>
      exact h.merge_segment_set_bounded hcodec hroom hknown outputs parts engine_fault fault
        undeleted delete_fault
  | rebuild_field outputs parts engine_fault fault undeleted =>
      exact h.rebuild_field hcodec hroom outputs parts engine_fault fault undeleted
  | reopen recount undeleted =>
      obtain ⟨found, -, -, hreport, hinv⟩ := h.reopen recount undeleted
      dsimp only [ManifestCall.run] at hreport hinv ⊢
      rw [hreport]
      exact hinv

theorem manifestInvariant_run (hcodec : codec.Lawful) {labels : List (ManifestCall × Report)}
    {files' : IndexFiles} (hrun : Run ((ManifestStep codec).guarded Counted) files labels files')
    (h : ManifestInvariant codec history files) :
    ManifestInvariant codec (labels.foldl History.after history) files' := by
  induction hrun generalizing history with
  | nil files => exact h
  | cons hstep _ ih => exact ih (manifestInvariant_step hcodec h hstep.1 hstep.2)

theorem publish_and_delete_handed (files : IndexFiles)
    (mutate : List SegmentInfo → List SegmentInfo) (fault : Option ManifestFault)
    (segment_ids undeleted : List String) (delete_fault : Option LaurusError) :
    (files.publish_and_delete codec mutate fault segment_ids undeleted delete_fault).1.handed = [] := by
  unfold IndexFiles.publish_and_delete
  dsimp only
  split
  · rfl
  · split
    · rfl
    · rfl

/-- **What a call hands out is at or past the counter**, each once. -/
theorem handed_spec {call : ManifestCall}
    (hroom : files.manifest.next_generation.toNat + call.generations files < 2 ^ 64) :
    (∀ g ∈ (call.run codec files).1.handed, files.manifest.next_generation ≤ g) ∧
      (call.run codec files).1.handed.Nodup := by
  have hempty : ∀ handed : List UInt64, handed = [] →
      (∀ g ∈ handed, files.manifest.next_generation ≤ g) ∧ handed.Nodup := by simp
  have hone : (∀ g ∈ [files.manifest.next_generation], files.manifest.next_generation ≤ g) ∧
      [files.manifest.next_generation].Nodup :=
    ⟨fun g hg => by grind, List.nodup_singleton _⟩
  have hrewrite : ∀ (sources : List String) (outputs : List SegmentInfo)
      (parts : List (ℕ × String × Bytes)) (engine_fault : Option LaurusError)
      (fault : Option ManifestFault) (undeleted : List String) (delete_fault : Option LaurusError),
      files.manifest.next_generation.toNat + sources.length < 2 ^ 64 →
      (∀ g ∈ (files.rewrite_segments codec sources outputs parts engine_fault fault undeleted
        delete_fault).1.handed, files.manifest.next_generation ≤ g) ∧
      (files.rewrite_segments codec sources outputs parts engine_fault fault undeleted
        delete_fault).1.handed.Nodup := by
    intro sources outputs parts engine_fault fault undeleted delete_fault hlen
    obtain ⟨hrange, hnodup, -, -⟩ := reserve_each_spec files hlen
    have hhanded : (files.rewrite_segments codec sources outputs parts engine_fault fault undeleted
        delete_fault).1.handed = (files.reserve_each sources.length).1 := by
      unfold IndexFiles.rewrite_segments
      grind
    grind
  cases call with
  | reserve_generation => exact hone
  | flush_segment info parts fault =>
      cases fault with
      | some e => exact hone
      | none => exact hone
  | publish_pending_segments fault =>
      refine hempty _ ?_
      dsimp only [ManifestCall.run]
      unfold IndexFiles.publish_pending_segments
      split
      · rfl
      · dsimp only
        split
        · rfl
        · rfl
  | flush_deletions bitmaps counts bitmap_fault fault =>
      refine hempty _ ?_
      dsimp only [ManifestCall.run]
      unfold IndexFiles.flush_deletions
      dsimp only
      split
      · rfl
      · split
        · rfl
        · split
          · rfl
          · rfl
  | rollback fault undeleted delete_fault =>
      refine hempty _ ?_
      dsimp only [ManifestCall.run]
      unfold IndexFiles.rollback
      dsimp only
      split
      · rfl
      · exact publish_and_delete_handed _ _ _ _ _ _
  | merge_segment_set_bounded sources outputs parts engine_fault fault undeleted delete_fault =>
      dsimp only [ManifestCall.run]
      unfold IndexFiles.merge_segment_set_bounded
      split
      · exact hempty _ rfl
      · exact hrewrite _ _ _ _ _ _ _ hroom
  | rebuild_field outputs parts engine_fault fault undeleted =>
      dsimp only [ManifestCall.run]
      unfold IndexFiles.rebuild_field
      dsimp only
      split
      · exact hempty _ rfl
      · refine hrewrite _ _ _ _ _ _ _ ?_
        rw [List.length_map]
        exact hroom
  | reopen recount undeleted =>
      refine hempty _ ?_
      dsimp only [ManifestCall.run]
      unfold IndexFiles.reopen
      split
      · rfl
      · rfl

end Laurus
