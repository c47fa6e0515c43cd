import Laurus.Lexical.Model.SegmentInfo
import Laurus.Storage.Model.Manifest
import Mathlib.Data.List.Basic

/-!
# The files of an inverted index (`lexical/index/inverted.rs`, `writer.rs`)

What publishes segments, with the storage, the manifest and the segments that
the writer has flushed and not published. What is in a segment's files, and
what a bitmap counts, is up to the call. A call reports the generations it
hands out and the manifests it saves.
-/

namespace Laurus

/-!
## The segment manifest (`lexical/index/inverted/segment_manifest.rs`)

The in-memory list of the committed segments, the counter their generations
are handed out from, and `segments.json`, which is saved before the list is
replaced. `serde_json` is a `ManifestCodec`'s. Sums of `u64` wrap around.
-/

/-- `serde_json`, at the manifest and at the `.meta` records of older builds,
with what checksums are computed by. -/
structure ManifestCodec where
  crc32 : Bytes → UInt32
  to_vec : ℕ → List SegmentInfo → Except String Bytes
  from_slice : Bytes → Except String (ℕ × List SegmentInfo)
  /-- A record, and whether it is `committed`. -/
  meta_from_slice : Bytes → Except String (SegmentInfo × Bool)

/-- `MANIFEST_FILE`. -/
def MANIFEST_FILE : String := "segments.json"

/-- `MANIFEST_VERSION`. -/
def MANIFEST_VERSION : ℕ := 2

/-- `AUTHORITATIVE_VERSION`. -/
def AUTHORITATIVE_VERSION : ℕ := 2

/-! ## Names of segments and of their files -/

/-- A file name up to its first dot. -/
def stem (file_name : String) : List Char := file_name.toList.takeWhile (· ≠ '.')

/-- `str::strip_prefix`. -/
def strip_leading (first : String) (chars : List Char) : Option (List Char) :=
  if first.toList.isPrefixOf chars then some (chars.drop first.length) else none

/-- `ordinal.parse().ok()`, of digits. -/
def parse_ordinal (digits : List Char) : Option UInt64 :=
  let value := Nat.ofDigitChars 10 digits 0
  if value < 2 ^ 64 then some (UInt64.ofNat value) else none

/-- The digits in the name of a file of a segment. -/
def stem_digits (file_name : String) : Option (List Char) :=
  let stem := stem file_name
  match (strip_leading "segment_" stem).or (strip_leading "merged_" stem) with
  | none => none
  | some ordinal => if ordinal = [] ∨ ¬ ordinal.all Char.isDigit then none else some ordinal

/-- `stem_ordinal`. -/
def stem_ordinal (file_name : String) : Option UInt64 :=
  (stem_digits file_name).bind parse_ordinal

/-- The name of a flushed segment: `{:06}` of its generation. -/
def segment_name (generation : UInt64) : String :=
  let digits := Nat.toDigits 10 generation.toNat
  "segment_" ++ String.ofList (List.replicate (6 - digits.length) '0' ++ digits)

/-- The name of a merged segment. -/
def merged_name (generation : UInt64) : String :=
  "merged_" ++ String.ofList (Nat.toDigits 10 generation.toNat)

/-! ## The manifest in memory and its file -/

/-- `ManifestState`. -/
structure ManifestState where
  segments : List SegmentInfo
  next_generation : UInt64
  deriving DecidableEq, Repr

namespace segment_manifest

variable (codec : ManifestCodec)

/-- `load`. -/
def load (storage : Storage) : Except Fault (Option (ℕ × List SegmentInfo)) :=
  match storage.load_checksummed codec.crc32 MANIFEST_FILE none with
  | .error e => .error e
  | .ok none => .ok none
  | .ok (some (payload, _)) =>
    match codec.from_slice payload with
    | .ok manifest => .ok (some manifest)
    | .error e => .error (.error (.index s!"failed to deserialize {MANIFEST_FILE}: {e}"))

/-- `save`. -/
def save (storage : Storage) (segments : List SegmentInfo) (fault : Option ManifestFault) :
    Except LaurusError Unit × Storage :=
  match codec.to_vec MANIFEST_VERSION segments with
  | .error e => (.error (.index s!"failed to serialize {MANIFEST_FILE}: {e}"), storage)
  | .ok json => storage.save_checksummed codec.crc32 MANIFEST_FILE none json fault

/-- `publish_with`: the candidate is saved, and then it replaces the list. -/
def publish_with (storage : Storage) (shared : ManifestState)
    (mutate : List SegmentInfo → List SegmentInfo) (fault : Option ManifestFault) :
    Except LaurusError Unit × Storage × ManifestState :=
  let candidate := mutate shared.segments
  match save codec storage candidate fault with
  | (.error e, storage) => (.error e, storage, shared)
  | (.ok (), storage) => (.ok (), storage, { shared with segments := candidate })

/-- `reserve_generation`. -/
def reserve_generation (shared : ManifestState) : UInt64 × ManifestState :=
  (shared.next_generation, { shared with next_generation := shared.next_generation + 1 })

/-- The greatest of some numbers, or zero. -/
def max_or_zero (numbers : List UInt64) : UInt64 := numbers.foldl max 0

/-- `derive_next_generation`. -/
def derive_next_generation (entries : List SegmentInfo) (files : List String) : UInt64 :=
  let from_entries := max_or_zero (entries.map fun s => s.generation + 1)
  let from_files := max_or_zero ((files.filterMap stem_ordinal).map fun ordinal => ordinal + 1)
  max from_entries from_files

/-- `upsert_entry`. -/
def upsert_entry (list : List SegmentInfo) (info : SegmentInfo) : List SegmentInfo :=
  match list.findIdx? fun entry => entry.segment_id = info.segment_id with
  | some i => list.set i info
  | none => list ++ [info]

/-- What `flush_deletions` records of a segment. -/
def flip (count : String × Option UInt64) (entry : SegmentInfo) : SegmentInfo :=
  { entry with has_deletions := true, deleted_count := count.2 }

/-- A segment's deletions recorded in the first entry of its id. -/
def flip_entry (list : List SegmentInfo) (count : String × Option UInt64) : List SegmentInfo :=
  list.modify (list.findIdx fun entry => entry.segment_id = count.1) (flip count)

/-- The transition of a merge or a rebuild: its sources leave, and what it
made of them enters. -/
def replace_segments (source_ids : List String) (new_infos list : List SegmentInfo) :
    List SegmentInfo :=
  new_infos.foldl upsert_entry (list.filter fun entry => entry.segment_id ∉ source_ids)

end segment_manifest

/-- What a call does that others see: the generations it hands out, the
manifests it saves and what the save returned, what opening found listed, and
its result. -/
structure Report where
  handed : List UInt64
  saves : List (List SegmentInfo × Except LaurusError Unit)
  loaded : Option (List SegmentInfo)
  result : Except Fault Unit

/-- A call that touches no manifest. -/
def Report.of (result : Except Fault Unit) : Report :=
  { handed := [], saves := [], loaded := none, result }

/-- An index's files, its manifest, and its writer's `pending_publish`. -/
structure IndexFiles where
  storage : Storage
  manifest : ManifestState
  pending_publish : List SegmentInfo

/-- A file of a segment. -/
def file_of_segment (segment_id suffix : String) : String := segment_id ++ "." ++ suffix

/-- Files written, each as far as its writing came. -/
def write_files (storage : Storage) (files : List (String × Bytes)) : Storage :=
  files.foldl (fun storage file => AList.insert file.1 file.2 storage) storage

/-- Files deleted one after another. -/
def erase_files (storage : Storage) (names : List String) : Storage :=
  names.foldl (fun storage file => AList.erase file storage) storage

/-- Whether a file is one of a segment's. -/
def is_file_of (file segment_id : String) : Bool :=
  (segment_id ++ ".").toList.isPrefixOf file.toList

/-- `delete_segment_files`: `undeleted` are those that fail to go. -/
def delete_segment_files (storage : Storage) (segment_ids undeleted : List String) : Storage :=
  erase_files storage
    (storage.keys.filter fun file => segment_ids.any (is_file_of file) ∧ file ∉ undeleted)

namespace IndexFiles

open segment_manifest

variable (codec : ManifestCodec)

/-! ## Creating and opening -/

/-- `create`. -/
def create (storage : Storage) : Except LaurusError IndexFiles :=
  match save codec storage [] none with
  | (.error e, _) => .error e
  | (.ok (), storage) => .ok {
      storage
      manifest := { segments := [], next_generation := 0 }
      pending_publish := [] }

/-- `starts_with`, of one of the names that segments have. -/
def segment_named (file : String) : Bool :=
  "segment_".toList.isPrefixOf file.toList ∨ "merged_".toList.isPrefixOf file.toList

/-- `ends_with(".meta")`. -/
def is_meta (file : String) : Bool := ".meta".toList.isSuffixOf file.toList

/-- `scan_segment_metas_from`. -/
def scan_segment_metas_from (storage : Storage) :
    List (Σ _ : String, Bytes) → Except Fault (List SegmentInfo)
  | [] => .ok []
  | ⟨file, data⟩ :: files =>
    if segment_named file ∧ is_meta file then
      match codec.meta_from_slice data with
      | .error e => .error (.error (.index s!"Failed to parse segment metadata: {e}"))
      | .ok (info, committed) =>
        match scan_segment_metas_from storage files with
        | .error e => .error e
        | .ok segments =>
          .ok (if committed then { info with deleted_count := none } :: segments else segments)
    else scan_segment_metas_from storage files

/-- `recount_unrecorded_deletions`, by what `recount_deletions` counts. -/
def recount_unrecorded_deletions (recount : SegmentInfo → Option UInt64)
    (segments : List SegmentInfo) : List SegmentInfo :=
  segments.map fun info =>
    if info.deleted_count = none then { info with deleted_count := recount info } else info

/-- What `sweep_orphans` deletes. -/
def is_orphan (manifest : List SegmentInfo) (file : String) : Bool :=
  file = "segments.json.tmp" ∨
    ((stem_digits file).isSome ∧ ∀ s ∈ manifest, s.segment_id.toList ≠ stem file)

/-- `sweep_orphans`: `undeleted` are those that fail to go. -/
def sweep_orphans (storage : Storage) (manifest : List SegmentInfo) (files undeleted : List String) :
    Storage :=
  erase_files storage (files.filter fun file => is_orphan manifest file ∧ file ∉ undeleted)

/-- The error of a manifest that is lost. -/
def lost_manifest : LaurusError := .index
  "segments.json is missing but segment files are present; refusing to                          open — restore the manifest (or remove the segment files) instead of                          losing the segments to the next sweep"

/-- The segments that opening finds. -/
def discover (storage : Storage) (loaded : Option (ℕ × List SegmentInfo)) :
    Except Fault (List SegmentInfo) :=
  let scan :=
    let has_meta := storage.keys.any fun f => is_meta f ∧ (stem_ordinal f).isSome
    let has_segment_files := storage.keys.any fun f => (stem_ordinal f).isSome
    if loaded.isNone ∧ ¬ has_meta ∧ has_segment_files then .error (.error lost_manifest)
    else scan_segment_metas_from codec storage storage.entries
  match loaded with
  | some (version, segments) => if AUTHORITATIVE_VERSION ≤ version then .ok segments else scan
  | none => scan

/-- `open`, once `metadata.json` is read. -/
def «open» (storage : Storage) (recount : SegmentInfo → Option UInt64) (undeleted : List String) :
    Except Fault (List SegmentInfo × IndexFiles) :=
  match load codec storage with
  | .error e => .error e
  | .ok loaded =>
    match discover codec storage loaded with
    | .error e => .error e
    | .ok found =>
      let segments := recount_unrecorded_deletions recount found
      let next_generation := derive_next_generation segments storage.keys
      let authoritative := loaded.any fun manifest => AUTHORITATIVE_VERSION ≤ manifest.1
      .ok (found, {
        storage := if authoritative then sweep_orphans storage segments storage.keys undeleted
          else storage
        manifest := { segments, next_generation }
        pending_publish := [] })

/-- An index is dropped, and opened again. One that fails to open leaves its
files. -/
def reopen (files : IndexFiles) (recount : SegmentInfo → Option UInt64)
    (undeleted : List String) : Report × IndexFiles :=
  match «open» codec files.storage recount undeleted with
  | .error e => (.of (.error e), files)
  | .ok (found, files) =>
    ({ handed := [], saves := [], loaded := some found, result := .ok () }, files)

/-! ## Publishing -/

/-- `publish_with`, at an index. -/
def publish (files : IndexFiles) (mutate : List SegmentInfo → List SegmentInfo)
    (fault : Option ManifestFault) : Report × IndexFiles :=
  let out := publish_with codec files.storage files.manifest mutate fault
  ({ handed := [], saves := [(mutate files.manifest.segments, out.1)], loaded := none,
     result := out.1.mapError Fault.error },
   { files with storage := out.2.1, manifest := out.2.2 })

/-- A publication that is followed by the deletion of segments' files. -/
def publish_and_delete (files : IndexFiles) (mutate : List SegmentInfo → List SegmentInfo)
    (fault : Option ManifestFault) (segment_ids undeleted : List String)
    (delete_fault : Option LaurusError) : Report × IndexFiles :=
  let published := files.publish codec mutate fault
  match published.1.result with
  | .error _ => published
  | .ok () =>
    let files := { published.2 with
      storage := delete_segment_files published.2.storage segment_ids undeleted }
    match delete_fault with
    | some e => ({ published.1 with result := .error (.error e) }, files)
    | none => (published.1, files)

/-- `reserve_generation`, at an index. -/
def reserve (files : IndexFiles) : Report × IndexFiles :=
  let out := reserve_generation files.manifest
  ({ Report.of (.ok ()) with handed := [out.1] }, { files with manifest := out.2 })

/-- `flush_segment`, of the files it writes; an error comes once they are
written. -/
def flush_segment (files : IndexFiles) (info : SegmentInfo) (parts : List (String × Bytes))
    (fault : Option LaurusError) : Report × IndexFiles :=
  let generation := files.manifest.next_generation
  let reserved := files.reserve
  let name := segment_name generation
  let files := { reserved.2 with
    storage := write_files files.storage (parts.map fun part => (file_of_segment name part.1, part.2)) }
  match fault with
  | some e => ({ reserved.1 with result := .error (.error e) }, files)
  | none => (reserved.1, { files with
      pending_publish := files.pending_publish ++ [{ info with segment_id := name, generation }] })

/-- `publish_pending_segments`. -/
def publish_pending_segments (files : IndexFiles) (fault : Option ManifestFault) :
    Report × IndexFiles :=
  if files.pending_publish = [] then (.of (.ok ()), files)
  else
    let published := files.publish codec (files.pending_publish.foldl upsert_entry) fault
    match published.1.result with
    | .error _ => published
    | .ok () => (published.1, { published.2 with pending_publish := [] })

/-- `flush_deletions`: bitmaps are written, and then what they count is
recorded where their segments are listed. -/
def flush_deletions (files : IndexFiles) (bitmaps : List (String × String × Bytes))
    (counts : List (String × Option UInt64)) (bitmap_fault : Option LaurusError)
    (fault : Option ManifestFault) : Report × IndexFiles :=
  let files := { files with
    storage := write_files files.storage
      (bitmaps.map fun bitmap => (file_of_segment bitmap.1 bitmap.2.1, bitmap.2.2)) }
  match bitmap_fault with
  | some e => (.of (.error (.error e)), files)
  | none =>
    if counts = [] then (.of (.ok ()), files)
    else
      let published := files.publish codec (counts.foldl flip_entry) fault
      match published.1.result with
      | .error _ => published
      | .ok () => (published.1, { published.2 with
          pending_publish := counts.foldl flip_entry files.pending_publish })

/-- `rollback`, of the segments that are flushed. -/
def rollback (files : IndexFiles) (fault : Option ManifestFault) (undeleted : List String)
    (delete_fault : Option LaurusError) : Report × IndexFiles :=
  let dropped := files.pending_publish.map SegmentInfo.segment_id
  let files := { files with pending_publish := [] }
  if dropped = [] then (.of (.ok ()), files)
  else files.publish_and_delete codec id fault dropped undeleted delete_fault

/-- A generation for each source. -/
def reserve_each (files : IndexFiles) : ℕ → List UInt64 × IndexFiles
  | 0 => ([], files)
  | n + 1 =>
    let reserved := files.reserve
    let rest := reserve_each reserved.2 n
    (reserved.1.handed ++ rest.1, rest.2)

/-- What a merge engine made, under the name it was given. -/
def output_info (info : SegmentInfo) (new_segment_id : String) : SegmentInfo :=
  { info with
    segment_id := new_segment_id
    generation := (stem_ordinal new_segment_id).getD info.generation }

/-- What a merge and a rebuild have in common: segments are made of `sources`,
replace them in the manifest, and then the files of the sources go. -/
def rewrite_segments (files : IndexFiles) (sources : List String) (outputs : List SegmentInfo)
    (parts : List (ℕ × String × Bytes)) (engine_fault : Option LaurusError)
    (fault : Option ManifestFault) (undeleted : List String) (delete_fault : Option LaurusError) :
    Report × IndexFiles :=
  let reserved := files.reserve_each sources.length
  let new_segment_ids := reserved.1.map merged_name
  let files := { reserved.2 with
    storage := write_files files.storage (parts.filterMap fun part =>
      new_segment_ids[part.1]?.map fun segment_id => (file_of_segment segment_id part.2.1, part.2.2)) }
  match engine_fault with
  | some e => ({ Report.of (.error (.error e)) with handed := reserved.1 }, files)
  | none =>
    let new_infos := List.zipWith output_info outputs new_segment_ids
    let published := files.publish_and_delete codec (replace_segments sources new_infos) fault
      sources undeleted delete_fault
    ({ published.1 with handed := reserved.1 }, published.2)

/-- `merge_segment_set_bounded`. -/
def merge_segment_set_bounded (files : IndexFiles) (sources : List String)
    (outputs : List SegmentInfo) (parts : List (ℕ × String × Bytes))
    (engine_fault : Option LaurusError) (fault : Option ManifestFault) (undeleted : List String)
    (delete_fault : Option LaurusError) : Report × IndexFiles :=
  if sources.length < 2 then (.of (.ok ()), files)
  else files.rewrite_segments codec sources outputs parts engine_fault fault undeleted delete_fault

/-- `rebuild_field`, of all that is listed. Files that fail to go are left. -/
def rebuild_field (files : IndexFiles) (outputs : List SegmentInfo)
    (parts : List (ℕ × String × Bytes)) (engine_fault : Option LaurusError)
    (fault : Option ManifestFault) (undeleted : List String) : Report × IndexFiles :=
  let sources := files.manifest.segments.map SegmentInfo.segment_id
  if sources = [] then (.of (.ok ()), files)
  else files.rewrite_segments codec sources outputs parts engine_fault fault undeleted none

end IndexFiles

end Laurus
