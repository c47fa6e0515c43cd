import Laurus.Common.Newest
import Laurus.Common.Run
import Mathlib.Data.Finset.Basic
import Mathlib.Data.String.Basic
import Mathlib.Logic.Function.Basic
import Mathlib.Tactic.Ring

/-!
# A segmented vector index (`vector/index/segment/segmented_index.rs`)

The writer's buffer, the sealed segments, the one deletion bitmap, merges in
their steps, and what a reader shows. A segment is known by its generation,
since the registry keeps ids and generations distinct; its file is what it
decodes to. Saves succeed here. The writer is dropped after a commit, as the
store does, and the store's writer lock is held over a merge.
-/

namespace Laurus

/-- A document, and a field. -/
abbrev VectorKey := ℕ × String

/-- A sealed segment. -/
structure SealedSegment (V : Type*) where
  generation : ℕ
  vectors : List (VectorKey × V)

variable {V β : Type*}

namespace SealedSegment

def vector_ids (s : SealedSegment V) : List VectorKey := s.vectors.map Prod.fst

def get_vector (s : SealedSegment V) (key : VectorKey) : Option V :=
  (s.vectors.find? fun e => e.1 = key).map Prod.snd

def contains_vector (s : SealedSegment V) (key : VectorKey) : Bool := key ∈ s.vector_ids

def field_names (s : SealedSegment V) : List String := (s.vector_ids.map Prod.snd).dedup

def doc_ids_for_field (s : SealedSegment V) (field : String) : List ℕ :=
  (s.vector_ids.filter fun key => key.2 = field).map Prod.fst

end SealedSegment

/-! ## Sealing -/

/-- The order of `sort_vectors`. -/
def key_le (a b : VectorKey) : Prop := a.1 < b.1 ∨ a.1 = b.1 ∧ a.2 ≤ b.2

instance : DecidableRel key_le := fun a b =>
  inferInstanceAs (Decidable (a.1 < b.1 ∨ a.1 = b.1 ∧ a.2 ≤ b.2))

/-- Of neighbours with one key, the last. -/
def keep_last : List (VectorKey × V) → List (VectorKey × V)
  | [] => []
  | [e] => [e]
  | e :: e' :: rest => if e.1 = e'.1 then keep_last (e' :: rest) else e :: keep_last (e' :: rest)

/-- `deduplicate_vectors`; the sort is stable. -/
def deduplicate_vectors (vectors : List (VectorKey × V)) : List (VectorKey × V) :=
  keep_last (vectors.insertionSort fun a b => key_le a.1 b.1)

/-! ## Merging and reading -/

/-- An entry is taken unless its document is deleted or its key was seen. -/
def first_seen (deleted : Finset ℕ) (taken : List (VectorKey × β)) (e : VectorKey × β) :
    List (VectorKey × β) :=
  if e.1.1 ∈ deleted then taken
  else if taken.any fun t => t.1 = e.1 then taken
  else taken ++ [e]

/-- The newest generation. -/
def newest_generation (segments : List (SealedSegment V)) : ℕ :=
  segments.foldr (fun s m => max s.generation m) 0

/-- `MergeEngine::merge_segments`. -/
def merge_segments (segments : List (SealedSegment V)) (deletions : Finset ℕ) :
    SealedSegment V where
  generation := newest_generation segments
  vectors := deduplicate_vectors <|
    ((newest_first SealedSegment.generation segments).flatMap SealedSegment.vectors).foldl
      (first_seen deletions) []

/-- `SegmentedReaderFacade`. -/
structure SegmentedReaderFacade (V : Type*) where
  readers : List (SealedSegment V)
  entries : List (VectorKey × ℕ)

namespace SegmentedReaderFacade

/-- The keys of the readers, each with its reader's index. -/
def indexed_ids (start : ℕ) : List (SealedSegment V) → List (VectorKey × ℕ)
  | [] => []
  | reader :: readers =>
    reader.vector_ids.map (fun key => (key, start)) ++ indexed_ids (start + 1) readers

/-- `new`. -/
def new (readers : List (SealedSegment V)) (bitmap : Finset ℕ) : SegmentedReaderFacade V where
  readers
  entries := (indexed_ids 0 readers).foldl (first_seen bitmap) []

def owner_of (facade : SegmentedReaderFacade V) (key : VectorKey) : Option (SealedSegment V) :=
  (facade.entries.find? fun e => e.1 = key).bind fun e => facade.readers[e.2]?

def get_vector (facade : SegmentedReaderFacade V) (key : VectorKey) : Option V :=
  (facade.owner_of key).bind fun reader => reader.get_vector key

def vector_ids (facade : SegmentedReaderFacade V) : List VectorKey := facade.entries.map Prod.fst

end SegmentedReaderFacade

namespace SegmentFanoutSearcher

/-- What `count` counts of one reader: its keys of unmarked documents that no
newer reader has. -/
def counted (bitmap : Finset ℕ) (field_name : Option String) (newer : List (SealedSegment V))
    (reader : SealedSegment V) : List VectorKey :=
  let fields := match field_name with
    | some field => [field]
    | none => reader.field_names
  fields.flatMap fun field =>
    ((reader.doc_ids_for_field field).map fun doc_id => (doc_id, field)).filter fun key =>
      key.1 ∉ bitmap ∧ ! newer.any fun r => r.contains_vector key

/-- Its loop, `newer` being the readers it has passed. -/
def count_from (bitmap : Finset ℕ) (field_name : Option String) (newer : List (SealedSegment V)) :
    List (SealedSegment V) → ℕ
  | [] => 0
  | reader :: readers => (counted bitmap field_name newer reader).length +
      count_from bitmap field_name (newer ++ [reader]) readers

/-- `count`. -/
def count (readers : List (SealedSegment V)) (bitmap : Finset ℕ) (field_name : Option String) :
    ℕ := count_from bitmap field_name [] readers

end SegmentFanoutSearcher

/-! ## The merge policy -/

/-- `SegmentManagerConfig`. -/
structure SegmentManagerConfig where
  max_segments : ℕ
  merge_factor : ℕ
  max_vectors_per_segment : ℕ

/-- `windows`. -/
def windows {α : Type*} (size : ℕ) (items : List α) : List (List α) :=
  (List.range (items.length + 1 - size)).map fun i => (items.drop i).take size

/-- `min_by_key`: the first of the least. -/
def min_by_key {α : Type*} (key : α → ℕ) : List α → Option α
  | [] => none
  | x :: xs =>
    match min_by_key key xs with
    | none => some x
    | some y => if key x ≤ key y then some x else some y

/-- `TieredMergePolicy`: `within_ratio largest smallest` is its test of two
sizes, in `f64`. -/
structure TieredMergePolicy where
  within_ratio : ℕ → ℕ → Bool

namespace TieredMergePolicy

/-- The vectors of a window, the sizes of the largest and of the smallest of
its segments. -/
def window_total (window : List (SealedSegment V)) : ℕ :=
  (window.map fun s => s.vectors.length).sum

def window_max (window : List (SealedSegment V)) : ℕ :=
  window.foldr (fun s m => max (max s.vectors.length 1) m) 1

def window_min : List (SealedSegment V) → ℕ
  | [] => 1
  | s :: window => window.foldr (fun t m => min (max t.vectors.length 1) m) (max s.vectors.length 1)

/-- `candidates`. -/
def candidates (policy : TieredMergePolicy) (config : SegmentManagerConfig)
    (segments : List (SealedSegment V)) : Option (List (SealedSegment V)) :=
  let merge_factor := max config.merge_factor 2
  if segments.length < merge_factor then none
  else
    let by_generation := segments.insertionSort fun a b => a.generation ≤ b.generation
    let similar := ((windows merge_factor by_generation).filter fun w =>
      policy.within_ratio (window_max w) (window_min w)).filter fun w =>
        window_total w ≤ config.max_vectors_per_segment
    match min_by_key window_total similar with
    | some window => some window
    | none =>
      if config.max_segments < segments.length then
        min_by_key window_total (windows merge_factor by_generation)
      else none

end TieredMergePolicy

/-! ## The index -/

/-- A merge on its way: what it was given, whether it is a full one, and
whether its segment is registered. -/
structure MergeInFlight (V : Type*) where
  sources : List (SealedSegment V)
  deletions : Option (Finset ℕ)
  full : Bool
  published : Bool

/-- The index, its writer, and the bitmap file; no file is `∅`. -/
structure SegmentedIndex (V : Type*) where
  segments : List (SealedSegment V)
  deletion : Option (Finset ℕ)
  delmap : Finset ℕ
  buffered : List (VectorKey × V)
  merging : Option (MergeInFlight V)

/-- A call, or a step of one. -/
inductive IndexCall (V : Type*)
  | delete_document (doc_id : ℕ)
  | add_vectors (vectors : List (VectorKey × V))
  /-- `commit` and `persist_deletions`. -/
  | commit
  | rollback
  | soft_delete_document (doc_id : ℕ)
  /-- `merge_once` up to its deletion snapshot. -/
  | merge_once
  /-- `optimize` up to its deletion snapshot. -/
  | optimize
  | apply_merge
  | forget_deletions
  | reopen

/-- The documents of some vectors. -/
def docs_of (vectors : List (VectorKey × V)) : Finset ℕ :=
  (vectors.map fun e => e.1.1).toFinset

namespace SegmentedIndex

/-- The bitmap's marks. -/
def marks (r : SegmentedIndex V) : Finset ℕ := r.deletion.getD ∅

def mark_deleted (r : SegmentedIndex V) (doc_id : ℕ) : SegmentedIndex V :=
  { r with deletion := some (insert doc_id r.marks) }

def unmark_deleted (r : SegmentedIndex V) (doc_ids : Finset ℕ) : SegmentedIndex V :=
  { r with deletion := r.deletion.map fun bitmap => bitmap \ doc_ids }

/-- `SegmentedWriter::commit`: nothing is sealed of an empty buffer. -/
def seal_buffered (r : SegmentedIndex V) : SegmentedIndex V :=
  if r.buffered.isEmpty then r
  else
    let segment : SealedSegment V :=
      { generation := newest_generation r.segments + 1
        vectors := deduplicate_vectors r.buffered }
    { r with segments := r.segments ++ [segment], buffered := [] }

def persist_deletions (r : SegmentedIndex V) : SegmentedIndex V :=
  { r with delmap := r.deletion.getD r.delmap }

/-- A merge begins: its sources and its snapshot are taken. -/
def begin_merge (r : SegmentedIndex V) (full : Bool) (sources : List (SealedSegment V)) :
    SegmentedIndex V :=
  { r with merging := some { sources, deletions := r.deletion, full, published := false } }

/-- `apply_merge`: a full merge has its snapshot to forget yet. -/
def apply_merge (r : SegmentedIndex V) (m : MergeInFlight V) : SegmentedIndex V :=
  { r with
    segments := (r.segments.filter fun s =>
        s.generation ∉ m.sources.map SealedSegment.generation) ++
      [merge_segments m.sources (m.deletions.getD ∅)]
    merging := if m.full then some { m with published := true } else none }

/-- `forget_deletions`. -/
def forget_deletions (r : SegmentedIndex V) (reclaimed : Option (Finset ℕ)) : SegmentedIndex V :=
  match reclaimed, r.deletion with
  | some reclaimed, some bitmap =>
    { r with
      deletion := if bitmap \ reclaimed = ∅ then none else some (bitmap \ reclaimed)
      delmap := bitmap \ reclaimed, merging := none }
  | _, _ => { r with merging := none }

/-- The index opened anew. -/
def reopen (r : SegmentedIndex V) : SegmentedIndex V :=
  { r with
    deletion := if r.delmap = ∅ then none else some r.delmap, buffered := [], merging := none }

/-- An index that was just created. -/
def empty : SegmentedIndex V :=
  { segments := [], deletion := none, delmap := ∅, buffered := [], merging := none }

variable (policy : TieredMergePolicy) (config : SegmentManagerConfig)

def run (r : SegmentedIndex V) : IndexCall V → SegmentedIndex V
  | .delete_document doc_id =>
    { r.mark_deleted doc_id with buffered := r.buffered.filter fun e => e.1.1 ≠ doc_id }
  | .add_vectors vectors =>
    { r.unmark_deleted (docs_of vectors) with buffered := r.buffered ++ vectors }
  | .commit => r.seal_buffered.persist_deletions
  | .rollback => { r with buffered := [] }
  | .soft_delete_document doc_id => r.mark_deleted doc_id
  | .merge_once =>
    match policy.candidates config r.segments with
    | some sources => r.begin_merge false sources
    | none => r
  | .optimize => if r.segments.isEmpty then r else r.begin_merge true r.segments
  | .apply_merge =>
    match r.merging with
    | some m => r.apply_merge m
    | none => r
  | .forget_deletions =>
    match r.merging with
    | some m => r.forget_deletions m.deletions
    | none => r
  | .reopen => r.reopen

/-- What the locks let through: writers and merges wait for a merge, soft
deletes do not. An index is reopened after a commit, with no mark set since. -/
def Allowed (r : SegmentedIndex V) : IndexCall V → Prop
  | .soft_delete_document _ => True
  | .apply_merge => ∃ m, r.merging = some m ∧ m.published = false
  | .forget_deletions => ∃ m, r.merging = some m ∧ m.published = true
  | .reopen => r.buffered = [] ∧ r.delmap = r.marks
  | _ => r.merging = none

/-- The sealed readers, the newest first. -/
def readers (r : SegmentedIndex V) : List (SealedSegment V) :=
  newest_first SealedSegment.generation r.segments

/-- `reader`. -/
def reader (r : SegmentedIndex V) : SegmentedReaderFacade V :=
  SegmentedReaderFacade.new r.readers r.marks

/-- What readers and searchers show is `content`. -/
structure Shows (r : SegmentedIndex V) (content : VectorKey → Option V) : Prop where
  get_vector : ∀ key, r.reader.get_vector key = content key
  vector_ids_nodup : r.reader.vector_ids.Nodup
  mem_vector_ids : ∀ key, key ∈ r.reader.vector_ids ↔ (content key).isSome
  count : ∀ field_name : Option String,
    SegmentFanoutSearcher.count r.readers r.marks field_name =
      (r.reader.vector_ids.filter fun key => field_name.all fun field => key.2 = field).length

end SegmentedIndex

/-! ## The sequential history -/

/-- The vectors that were set last, and those at the last commit. -/
structure VectorHistory (V : Type*) where
  current : VectorKey → Option V
  committed : VectorKey → Option V

namespace VectorHistory

/-- A content without a document. -/
def without (doc_id : ℕ) (content : VectorKey → Option V) : VectorKey → Option V :=
  fun key => if key.1 = doc_id then none else content key

/-- A deletion takes the vectors of its document at once. -/
def apply (h : VectorHistory V) : IndexCall V → VectorHistory V
  | .delete_document doc_id =>
    { current := without doc_id h.current, committed := without doc_id h.committed }
  | .soft_delete_document doc_id =>
    { current := without doc_id h.current, committed := without doc_id h.committed }
  | .add_vectors vectors =>
    { h with current := vectors.foldl (fun c e => Function.update c e.1 (some e.2)) h.current }
  | .commit => { h with committed := h.current }
  | .rollback => { h with current := h.committed }
  | _ => h

end VectorHistory

/-- An index beside its history, and the documents whose mark was cleared
since the last commit or rollback and not set again. -/
structure IndexRun (V : Type*) where
  index : SegmentedIndex V
  history : VectorHistory V
  cleared : Finset ℕ

namespace IndexRun

variable (policy : TieredMergePolicy) (config : SegmentManagerConfig)

/-- The documents whose mark is cleared. -/
def cleared_after (r : IndexRun V) : IndexCall V → Finset ℕ
  | .delete_document doc_id => r.cleared.erase doc_id
  | .soft_delete_document doc_id => r.cleared.erase doc_id
  | .add_vectors vectors => r.cleared ∪ (docs_of vectors ∩ r.index.marks)
  | .commit => ∅
  | .rollback => ∅
  | _ => r.cleared

def run (r : IndexRun V) (call : IndexCall V) : IndexRun V where
  index := r.index.run policy config call
  history := r.history.apply call
  cleared := r.cleared_after call

def step : Step (IndexRun V) (IndexCall V) := fun r call r' => r.run policy config call = r'

/-- A new index, nothing having happened. -/
def start : IndexRun V :=
  { index := .empty, history := { current := fun _ => none, committed := fun _ => none }
    cleared := ∅ }

/-- No old copy comes back with the call: a document that is set again after
its deletion is set in every field it was deleted in, is not rolled back, and
is not deleted in the buffer when a full merge begins. -/
def Clean (r : IndexRun V) : IndexCall V → Prop
  | .add_vectors vectors => ∀ e ∈ r.index.buffered, e.1.1 ∈ docs_of vectors →
      e.1.1 ∈ r.index.marks → e.1 ∈ vectors.map Prod.fst
  | .commit => ∀ s ∈ r.index.segments, ∀ key ∈ s.vector_ids,
      key.1 ∈ r.cleared → key ∈ r.index.buffered.map Prod.fst
  | .rollback => ∀ s ∈ r.index.segments, ∀ key ∈ s.vector_ids, key.1 ∉ r.cleared
  | .optimize => ∀ e ∈ r.index.buffered, e.1.1 ∉ r.index.marks
  | _ => True

instance (r : IndexRun V) : DecidablePred r.Clean
  | .add_vectors vectors => inferInstanceAs (Decidable (∀ e ∈ r.index.buffered,
      e.1.1 ∈ docs_of vectors → e.1.1 ∈ r.index.marks → e.1 ∈ vectors.map Prod.fst))
  | .commit => inferInstanceAs (Decidable (∀ s ∈ r.index.segments, ∀ key ∈ s.vector_ids,
      key.1 ∈ r.cleared → key ∈ r.index.buffered.map Prod.fst))
  | .rollback => inferInstanceAs (Decidable (∀ s ∈ r.index.segments,
      ∀ key ∈ s.vector_ids, key.1 ∉ r.cleared))
  | .optimize => inferInstanceAs (Decidable (∀ e ∈ r.index.buffered, e.1.1 ∉ r.index.marks))
  | .delete_document _ | .soft_delete_document _ | .merge_once | .apply_merge
  | .forget_deletions | .reopen => inferInstanceAs (Decidable True)

end IndexRun

end Laurus
