import Laurus.Common.Run
import Mathlib.Data.Finset.Basic
import Mathlib.Data.List.Sort
import Mathlib.Tactic.Ring

/-!
# A registry under its callers (`vector/index/segment/segmented_core.rs`, `segmented_index.rs`)

The manager over its storage with the pending checkpoint, and the calls that
writers, merges and commits make of it. `handed` and `writing` are what the
callers know: the ids that were ever listed or handed out, and those handed
out since opening whose segment is not registered yet. A call carries what
its environment decides.
-/

namespace Laurus

/-!
## The segment registry of a vector index (`vector/index/segment/manager.rs`)

The list in memory, the counter that ids are handed out from, and the
manifest, which a save replaces as a whole or not at all. Counters do not
reach `2 ^ 64` and are natural numbers. The manifest is kept as what it
decodes to, without the record of the field; of a file its size is kept. The
suffixes of a layout are ASCII.
-/

/-- `SegmentFileLayout`. A file that ends in the primary suffix ends in no
other, and a sidecar is no primary file. -/
structure SegmentFileLayout where
  primary : String
  sidecars : List String
  tmp : String
  primary_alone : ∀ s ∈ sidecars.flatMap (fun s => [s, s ++ ".tmp"]) ++
    [tmp, ".delmap", "segments.json.tmp"], ¬ primary.toList <:+ s.toList
  sidecars_alone : ∀ s ∈ sidecars, ¬ s.toList <:+ primary.toList

namespace SegmentFileLayout

/-- `ordered_suffixes`, the longest first. -/
def ordered_suffixes (layout : SegmentFileLayout) : List String :=
  (layout.sidecars.flatMap (fun s => [s, s ++ ".tmp"]) ++
    [layout.primary, layout.tmp, ".delmap"]).insertionSort fun a b => b.length ≤ a.length

/-- The files of a segment that `add_segment` measures and a merge deletes. -/
def files (layout : SegmentFileLayout) (segment_id : String) : List String :=
  (layout.primary :: layout.sidecars).map fun s => segment_id ++ s

end SegmentFileLayout

theorem hnsw_primary_alone : ∀ s ∈ [".hnsw.f32"].flatMap (fun s => [s, s ++ ".tmp"]) ++
    [".hnsw.tmp", ".delmap", "segments.json.tmp"], ¬ ".hnsw".toList <:+ s.toList := by decide

theorem hnsw_sidecars_alone : ∀ s ∈ [".hnsw.f32"], ¬ s.toList <:+ ".hnsw".toList := by decide

/-- `LAYOUT` of `hnsw/segment.rs`. -/
def HNSW_LAYOUT : SegmentFileLayout where
  primary := ".hnsw"
  sidecars := [".hnsw.f32"]
  tmp := ".hnsw.tmp"
  primary_alone := hnsw_primary_alone
  sidecars_alone := hnsw_sidecars_alone

/-- `ManagedSegmentInfo`. -/
structure ManagedSegmentInfo where
  segment_id : String
  vector_count : ℕ
  vector_offset : ℕ
  generation : ℕ
  size_bytes : ℕ
  deriving DecidableEq, Repr

/-- `SegmentManifest`, in one of its two formats. -/
inductive SegmentManifest
  | legacy (segments : List ManagedSegmentInfo)
  | checksummed (next_segment_id last_wal_seq : ℕ) (segments : List ManagedSegmentInfo)
  deriving DecidableEq, Repr

/-- The entries a manifest lists. -/
def manifest_segments : Option SegmentManifest → List ManagedSegmentInfo
  | none => []
  | some (.legacy segments) => segments
  | some (.checksummed _ _ segments) => segments

/-- The storage of an index: the sizes of its files, and its manifest. -/
structure SegmentStorage where
  file_size : String → Option ℕ
  manifest : Option SegmentManifest

/-- How saving the manifest ends; a failure may leave the staged file. -/
inductive SaveOutcome
  | saved
  | failed (staged : Bool)
  deriving DecidableEq, Repr

/-- `SegmentManager`, apart from its storage. -/
structure SegmentManager where
  segments : List ManagedSegmentInfo
  next_segment_id : ℕ
  last_wal_seq : ℕ
  deriving DecidableEq, Repr

/-! ## Names -/

/-- `str::strip_suffix`. -/
def strip_end (tail : String) (file : String) : Option String :=
  if tail.toList.isSuffixOf file.toList then
    some (String.ofList (file.toList.take (file.toList.length - tail.toList.length)))
  else none

/-- `strip_prefix("segment_")`. -/
def segment_ordinal (segment_id : String) : Option (List Char) :=
  if "segment_".toList.isPrefixOf segment_id.toList then some (segment_id.toList.drop 8) else none

/-- `parse::<u64>().ok()`: a sign `+` may stand first. -/
def parse_u64 (chars : List Char) : Option ℕ :=
  let digits := if chars.head? = some '+' then chars.tail else chars
  if digits ≠ [] ∧ digits.all Char.isDigit ∧ Nat.ofDigitChars 10 digits 0 < 2 ^ 64 then
    some (Nat.ofDigitChars 10 digits 0)
  else none

/-- `segment_{:06}`. -/
def segment_id_of (id : ℕ) : String :=
  "segment_" ++ String.ofList
    (List.replicate (6 - (Nat.toDigits 10 id).length) '0' ++ Nat.toDigits 10 id)

/-! ## Opening -/

/-- The generations of entries that have none, from `next` on. -/
def stamp_zeros : (next : ℕ) → List ManagedSegmentInfo → List ManagedSegmentInfo
  | _, [] => []
  | next, s :: segments =>
    if s.generation = 0 then { s with generation := next + 1 } :: stamp_zeros (next + 1) segments
    else s :: stamp_zeros next segments

/-- The entries that have no generation are stamped below those that have. -/
def stamp_generations (segments : List ManagedSegmentInfo) : List ManagedSegmentInfo :=
  let zero_count := segments.countP fun s => s.generation = 0
  if zero_count = 0 then segments
  else
    stamp_zeros 0 <|
      if zero_count = segments.length then segments
      else segments.map fun s =>
        if s.generation = 0 then s else { s with generation := s.generation + zero_count }

/-- The first id above those of the entries. -/
def max_segment_id (segments : List ManagedSegmentInfo) : ℕ :=
  (segments.filterMap fun s => (segment_ordinal s.segment_id).bind parse_u64).foldr
    (fun id m => max (id + 1) m) 0

namespace SegmentManager

/-- `load_state`. -/
def load_state (manifest : Option SegmentManifest) : SegmentManager :=
  match manifest with
  | none => { segments := [], next_segment_id := 0, last_wal_seq := 0 }
  | some (.legacy segments) =>
    { segments := stamp_generations segments
      next_segment_id := max_segment_id (stamp_generations segments), last_wal_seq := 0 }
  | some (.checksummed next_segment_id last_wal_seq segments) =>
    { segments := stamp_generations segments
      next_segment_id := max next_segment_id (max_segment_id (stamp_generations segments))
      last_wal_seq }

/-- Whether `cleanup_orphans` takes a file. -/
def is_orphan_file (layout : SegmentFileLayout) (segments : List ManagedSegmentInfo)
    (file : String) : Bool :=
  if file = "segments.json.tmp" then true
  else
    match layout.ordered_suffixes.findSome? fun tail => strip_end tail file with
    | none => false
    | some stem =>
      match segment_ordinal stem with
      | none => false
      | some ordinal =>
        ! ordinal.isEmpty && ordinal.all Char.isDigit &&
          ! segments.any fun s => s.segment_id = stem

/-- Files deleted, apart from those that fail to go. -/
def delete_files (storage : SegmentStorage) (gone : String → Bool) (undeleted : Finset String) :
    SegmentStorage :=
  { storage with
    file_size := fun file => if gone file ∧ file ∉ undeleted then none else storage.file_size file }

/-- `cleanup_orphans`; `listed` is false where the files cannot be listed. -/
def cleanup_orphans (layout : SegmentFileLayout) (m : SegmentManager) (storage : SegmentStorage)
    (listed : Bool) (undeleted : Finset String) : SegmentStorage :=
  if listed then delete_files storage (is_orphan_file layout m.segments) undeleted else storage

/-- `new`. -/
def new (layout : SegmentFileLayout) (storage : SegmentStorage) (listed : Bool)
    (undeleted : Finset String) : SegmentManager × SegmentStorage :=
  let m := load_state storage.manifest
  (m, m.cleanup_orphans layout storage listed undeleted)

/-! ## Saving -/

/-- `save_state_locked`: whether it succeeds, and the storage. -/
def save_state_locked (m : SegmentManager) (segments : List ManagedSegmentInfo)
    (storage : SegmentStorage) (outcome : SaveOutcome) : Bool × SegmentStorage :=
  match outcome with
  | .saved =>
    (true, { storage with
      manifest := some (.checksummed m.next_segment_id m.last_wal_seq segments) })
  | .failed staged =>
    (false, { storage with
      file_size := fun file =>
        if staged ∧ file = "segments.json.tmp" then some 0 else storage.file_size file })

/-- The list is replaced, and then saved. -/
def replace_segments (m : SegmentManager) (segments : List ManagedSegmentInfo)
    (storage : SegmentStorage) (outcome : SaveOutcome) :
    Bool × SegmentManager × SegmentStorage :=
  let (saved, storage) := m.save_state_locked segments storage outcome
  (saved, { m with segments }, storage)

/-- `save_state`. -/
def save_state (m : SegmentManager) (storage : SegmentStorage) (outcome : SaveOutcome) :
    Bool × SegmentStorage := m.save_state_locked m.segments storage outcome

def set_last_wal_seq (m : SegmentManager) (seq : ℕ) : SegmentManager :=
  { m with last_wal_seq := seq }

/-! ## The operations -/

/-- `generate_segment_id`. -/
def generate_segment_id (m : SegmentManager) : String × SegmentManager :=
  (segment_id_of m.next_segment_id, { m with next_segment_id := m.next_segment_id + 1 })

/-- `measure_segment_size`. -/
def measure_segment_size (layout : SegmentFileLayout) (storage : SegmentStorage)
    (segment_id : String) : ℕ := ((layout.files segment_id).filterMap storage.file_size).sum

/-- The greatest generation, or zero. -/
def max_generation (segments : List ManagedSegmentInfo) : ℕ :=
  segments.foldr (fun s m => max s.generation m) 0

/-- What `add_segment` fills in. -/
def filled_in (layout : SegmentFileLayout) (m : SegmentManager) (storage : SegmentStorage)
    (info : ManagedSegmentInfo) : ManagedSegmentInfo :=
  { info with
    size_bytes :=
      if info.size_bytes = 0 then measure_segment_size layout storage info.segment_id
      else info.size_bytes
    generation :=
      if info.generation = 0 then max_generation m.segments + 1 else info.generation }

/-- `add_segment`. -/
def add_segment (layout : SegmentFileLayout) (m : SegmentManager) (storage : SegmentStorage)
    (info : ManagedSegmentInfo) (outcome : SaveOutcome) : Bool × SegmentManager × SegmentStorage :=
  m.replace_segments (m.segments ++ [filled_in layout m storage info]) storage outcome

/-- `remove_segment`. -/
def remove_segment (m : SegmentManager) (storage : SegmentStorage) (segment_id : String)
    (outcome : SaveOutcome) : Bool × SegmentManager × SegmentStorage :=
  match m.segments.findIdx? fun s => s.segment_id = segment_id with
  | some pos => m.replace_segments (m.segments.eraseIdx pos) storage outcome
  | none => (true, m, storage)

/-- `update_segment`. -/
def update_segment (m : SegmentManager) (storage : SegmentStorage) (info : ManagedSegmentInfo)
    (outcome : SaveOutcome) : Bool × SegmentManager × SegmentStorage :=
  match m.segments.findIdx? fun s => s.segment_id = info.segment_id with
  | some idx => m.replace_segments (m.segments.set idx info) storage outcome
  | none => m.replace_segments m.segments storage outcome

/-- `delete_segment_files`, of each of some segments. -/
def delete_segment_files (layout : SegmentFileLayout) (storage : SegmentStorage)
    (segment_ids : List String) (undeleted : Finset String) : SegmentStorage :=
  delete_files storage (fun file => segment_ids.any fun id => (layout.files id).contains file)
    undeleted

/-- `apply_merge`: the sources' files go once the list without them is saved. -/
def apply_merge (layout : SegmentFileLayout) (m : SegmentManager) (storage : SegmentStorage)
    (candidate : List ManagedSegmentInfo) (merged_segment : ManagedSegmentInfo)
    (outcome : SaveOutcome) (undeleted : Finset String) :
    Bool × SegmentManager × SegmentStorage :=
  let merged_segment := { merged_segment with
    size_bytes := measure_segment_size layout storage merged_segment.segment_id }
  let ids_to_remove := candidate.map ManagedSegmentInfo.segment_id
  let kept := m.segments.filter fun s => s.segment_id ∉ ids_to_remove
  match m.replace_segments (kept ++ [merged_segment]) storage outcome with
  | (false, m, storage) => (false, m, storage)
  | (true, m, storage) => (true, m, delete_segment_files layout storage ids_to_remove undeleted)

end SegmentManager

/-- A segment manager, `SegmentedCore`'s pending checkpoint, and the storage. -/
structure SegmentRegistry where
  manager : SegmentManager
  pending_wal_seq : ℕ
  storage : SegmentStorage
  handed : List String
  writing : List String

/-- A call. -/
inductive RegistryCall
  | generate_segment_id
  /-- A writer's or a merge's file is written. -/
  | write_file (file : String) (size : ℕ)
  | add_segment (info : ManagedSegmentInfo) (outcome : SaveOutcome)
  | remove_segment (segment_id : String) (outcome : SaveOutcome)
  | update_segment (info : ManagedSegmentInfo) (outcome : SaveOutcome)
  | apply_merge (candidate : List ManagedSegmentInfo) (merged_segment : ManagedSegmentInfo)
      (outcome : SaveOutcome) (undeleted : Finset String)
  | set_pending_wal_seq (seq : ℕ)
  | rollback_pending_wal_seq
  /-- `deletions_written` is false where writing the bitmap fails. -/
  | persist_deletions (deletions_written : Bool) (outcome : SaveOutcome)
  | reopen (listed : Bool) (undeleted : Finset String)

namespace SegmentRegistry

variable (layout : SegmentFileLayout)

/-- An index opened over a storage. -/
def opened (storage : SegmentStorage) (listed : Bool) (undeleted : Finset String)
    (handed : List String) : SegmentRegistry :=
  { manager := (SegmentManager.new layout storage listed undeleted).1
    pending_wal_seq := 0
    storage := (SegmentManager.new layout storage listed undeleted).2
    handed, writing := [] }

/-- What comes of an operation that registers a segment under an id. -/
def registered (r : SegmentRegistry) (segment_id : String)
    (result : Bool × SegmentManager × SegmentStorage) : SegmentRegistry :=
  { r with
    manager := result.2.1
    storage := result.2.2
    handed := r.handed ++ [segment_id]
    writing := if result.1 then r.writing.erase segment_id else r.writing }

/-- `persist_deletions`. -/
def persist_deletions (r : SegmentRegistry) (deletions_written : Bool) (outcome : SaveOutcome) :
    SegmentRegistry :=
  if ! deletions_written then r
  else if r.manager.last_wal_seq < r.pending_wal_seq then
    let manager := r.manager.set_last_wal_seq r.pending_wal_seq
    { r with manager, storage := (manager.save_state r.storage outcome).2 }
  else r

def run (r : SegmentRegistry) : RegistryCall → SegmentRegistry
  | .generate_segment_id =>
    { r with
      manager := r.manager.generate_segment_id.2
      handed := r.handed ++ [r.manager.generate_segment_id.1]
      writing := r.writing ++ [r.manager.generate_segment_id.1] }
  | .write_file file size =>
    { r with storage := { r.storage with
        file_size := fun f => if f = file then some size else r.storage.file_size f } }
  | .add_segment info outcome =>
    r.registered info.segment_id (r.manager.add_segment layout r.storage info outcome)
  | .remove_segment segment_id outcome =>
    { r with
      manager := (r.manager.remove_segment r.storage segment_id outcome).2.1
      storage := (r.manager.remove_segment r.storage segment_id outcome).2.2 }
  | .update_segment info outcome =>
    { r with
      manager := (r.manager.update_segment r.storage info outcome).2.1
      storage := (r.manager.update_segment r.storage info outcome).2.2 }
  | .apply_merge candidate merged_segment outcome undeleted =>
    r.registered merged_segment.segment_id
      (r.manager.apply_merge layout r.storage candidate merged_segment outcome undeleted)
  | .set_pending_wal_seq seq => { r with pending_wal_seq := max r.pending_wal_seq seq }
  | .rollback_pending_wal_seq => { r with pending_wal_seq := r.manager.last_wal_seq }
  | .persist_deletions deletions_written outcome => r.persist_deletions deletions_written outcome
  | .reopen listed undeleted => opened layout r.storage listed undeleted r.handed

/-- A call and what comes of it. -/
def step : Step SegmentRegistry RegistryCall := fun r call r' => r.run layout call = r'

/-- A segment's primary file is there. -/
def HasFile (storage : SegmentStorage) (segment_id : String) : Prop :=
  (storage.file_size (segment_id ++ layout.primary)).isSome

instance (storage : SegmentStorage) (segment_id : String) :
    Decidable (HasFile layout storage segment_id) :=
  inferInstanceAs (Decidable ((storage.file_size (segment_id ++ layout.primary)).isSome = true))

/-- What the callers see to. A writer registers the segment it was handed an
id for, once written, without a generation; opening registers the file of an
older layout as the first segment, under the name of the index; a merge is of
listed segments, into one with a new id and the greatest of their
generations. -/
def Promised (r : SegmentRegistry) : RegistryCall → Prop
  | .add_segment info _ => info.generation = 0 ∧ HasFile layout r.storage info.segment_id ∧
      (info.segment_id ∈ r.writing ∨
        r.manager.segments = [] ∧ ∀ id, info.segment_id ≠ segment_id_of id)
  | .apply_merge candidate merged_segment _ _ =>
      candidate ≠ [] ∧ (∀ s ∈ candidate, s ∈ r.manager.segments) ∧
        merged_segment.generation = SegmentManager.max_generation candidate ∧
        HasFile layout r.storage merged_segment.segment_id ∧
        merged_segment.segment_id ∈ r.writing ∧
        ∀ s ∈ r.manager.segments, s.segment_id ≠ merged_segment.segment_id
  | _ => True

/-- The call saves what it changes: no save of a change fails, an updated
entry's generation is no other's, and no id that was handed out is unsaved on
reopening. -/
def Saves (r : SegmentRegistry) : RegistryCall → Prop
  | .add_segment _ outcome => outcome = .saved
  | .remove_segment segment_id outcome =>
      (∃ s ∈ r.manager.segments, s.segment_id = segment_id) → outcome = .saved
  | .update_segment info outcome => ∀ s ∈ r.manager.segments,
      if s.segment_id = info.segment_id then
        info.generation ≠ 0 ∧ (info = s ∨ outcome = .saved)
      else s.generation ≠ info.generation
  | .apply_merge _ _ outcome _ => outcome = .saved
  | .persist_deletions deletions_written outcome =>
      deletions_written = true → r.manager.last_wal_seq < r.pending_wal_seq → outcome = .saved
  | .reopen _ _ => (SegmentManager.load_state r.storage.manifest).next_segment_id =
      r.manager.next_segment_id
  | _ => True

/-- A storage to start from: ids and generations are distinct where there are
any, ids are numbered below the counter's bound, and files are there. -/
structure Opens (storage : SegmentStorage) : Prop where
  ids : ((manifest_segments storage.manifest).map ManagedSegmentInfo.segment_id).Nodup
  generations : (manifest_segments storage.manifest).Pairwise fun s t =>
    s.generation ≠ 0 → s.generation ≠ t.generation
  numbers : ∀ s ∈ manifest_segments storage.manifest, ∀ id,
    s.segment_id = segment_id_of id → id < 2 ^ 64
  files : ∀ s ∈ manifest_segments storage.manifest, HasFile layout storage s.segment_id

/-- An index first opened over a storage. -/
def start (storage : SegmentStorage) (listed : Bool) (undeleted : Finset String) :
    SegmentRegistry :=
  opened layout storage listed undeleted
    ((manifest_segments storage.manifest).map ManagedSegmentInfo.segment_id)

/-- What a registry should be after each call. -/
structure Consistent (r : SegmentRegistry) : Prop where
  segments_on_storage : (SegmentManager.load_state r.storage.manifest).segments =
    r.manager.segments
  wal_on_storage : (SegmentManager.load_state r.storage.manifest).last_wal_seq =
    r.manager.last_wal_seq
  ids_distinct : (r.manager.segments.map ManagedSegmentInfo.segment_id).Nodup
  generations_distinct : (r.manager.segments.map ManagedSegmentInfo.generation).Nodup
  files_exist : ∀ s ∈ r.manager.segments, HasFile layout r.storage s.segment_id
  next_id_fresh : r.manager.generate_segment_id.1 ∉ r.handed

end SegmentRegistry

end Laurus
