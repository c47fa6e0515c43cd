import Laurus.Common.Patches
import Laurus.Common.Run
import Laurus.Engine.AppliedSeqs
import Mathlib.Data.List.FinRange

/-!
# The commit protocol (`engine.rs`)

A mutation appends one record to the write-ahead log and then applies it to the
stores piece by piece; a commit ladder persists one store after the other and
truncates the log; `recover` replays the log over what the stores persisted.
Calls of different external ids, ladders and what storage persists early
interleave in any order. Of the locks only that of an external id is modelled,
and the checks that end a ladder or a call early are actions that may come at
any time, so the program has no run that is not one here.

A store is what it holds for each internal id, in memory and on storage.
Numbers are natural numbers.
-/

namespace Laurus

namespace Engine

/-! ## The log -/

/-- `LogRecord`: the documents that it deletes, which is what a put replaces,
and the one that it adds. `as_chunk` is not in the log; it says what was asked
for. -/
structure LogRecord (Id Doc : Type) where
  seq : ℕ
  external_id : Id
  doc_ids : List ℕ
  upsert : Option (ℕ × Doc)
  as_chunk : Bool
  deriving DecidableEq, Repr

/-- What a store holds, by internal id. -/
abbrev Contents (Id Doc : Type) := ℕ → Option (Id × Doc)

variable {Id Doc : Type} {n : ℕ}

namespace LogRecord

/-- What a record makes of a document, where it touches it. -/
def value (record : LogRecord Id Doc) (doc_id : ℕ) : Option (Option (Id × Doc)) :=
  match record.upsert with
  | some (added, doc) =>
    if doc_id = added then some (some (record.external_id, doc))
    else if doc_id ∈ record.doc_ids then some none else none
  | none => if doc_id ∈ record.doc_ids then some none else none

end LogRecord

/-! ## The stores -/

/-- The lexical store, or the index of one vector field. -/
inductive Part (n : ℕ)
  | lexical
  | vector (field : Fin n)
  deriving DecidableEq, Repr

/-- One of them: what it holds, what of it is on storage, and the checkpoint
it persisted. -/
structure Store (Id Doc : Type) where
  mem : Contents Id Doc
  disk : Contents Id Doc
  checkpoint : ℕ

namespace Store

/-- `delete_document_by_internal_id`. -/
def delete (store : Store Id Doc) (doc_id : ℕ) : Store Id Doc :=
  { store with mem := Function.update store.mem doc_id none }

/-- `apply_prepared_upsert` and `write_prepared`. -/
def upsert (store : Store Id Doc) (doc_id : ℕ) (document : Id × Doc) : Store Id Doc :=
  { store with mem := Function.update store.mem doc_id (some document) }

/-- Storage takes some documents over before a commit is through. -/
def persist (store : Store Id Doc) (doc_ids : List ℕ) : Store Id Doc :=
  { store with disk := fun doc_id =>
      if doc_id ∈ doc_ids then store.mem doc_id else store.disk doc_id }

/-- `commit_through`. Without a writer cached the checkpoint stays. -/
def commit_through (store : Store Id Doc) (wal_seq : ℕ) (cached : Bool) : Store Id Doc :=
  { store with
    disk := store.mem
    checkpoint := if cached then max store.checkpoint wal_seq else store.checkpoint }

/-- What another process finds. -/
def reopen (store : Store Id Doc) : Store Id Doc := { store with mem := store.disk }

end Store

/-! ## Calls under way -/

/-- A piece of what a mutation does to the stores. -/
inductive Work (Id Doc : Type) (n : ℕ)
  | delete (part : Part n) (doc_id : ℕ)
  | store_document (doc_id : ℕ) (doc : Doc)
  | upsert (part : Part n) (doc_id : ℕ) (document : Id × Doc)
  deriving DecidableEq, Repr

/-- `apply_delete`. -/
def apply_delete (n : ℕ) (doc_id : ℕ) : List (Work Id Doc n) :=
  .delete .lexical doc_id :: (List.finRange n).map fun field => .delete (.vector field) doc_id

/-- `apply_upsert`. -/
def apply_upsert (n : ℕ) (doc_id : ℕ) (document : Id × Doc) : List (Work Id Doc n) :=
  .store_document doc_id document.2 :: .upsert .lexical doc_id document ::
    (List.finRange n).map fun field => .upsert (.vector field) doc_id document

/-- `write_put` and `write_delete`, from the append on. -/
def LogRecord.work (n : ℕ) (record : LogRecord Id Doc) : List (Work Id Doc n) :=
  record.doc_ids.flatMap (apply_delete n) ++
    match record.upsert with
    | some (doc_id, doc) => apply_upsert n doc_id (record.external_id, doc)
    | none => []

/-- A put or add, or a delete, of an external id, whose lock it holds: the
versions that it found and, from its append on, its record and the work that
is left. -/
structure Mutation (Id Doc : Type) (n : ℕ) where
  external_id : Id
  request : Option (Doc × Bool)
  previous : List ℕ
  applying : Option (LogRecord Id Doc × List (Work Id Doc n))
  deriving DecidableEq, Repr

/-- A step of `run_commit_ladder`. -/
inductive Rung (n : ℕ)
  | flush_wal
  | commit_through (part : Part n)
  | commit_documents
  | truncate
  deriving DecidableEq, Repr

/-- A run of `run_commit_ladder`: its snapshot and the steps that are left. -/
structure Ladder (n : ℕ) where
  applied_before : ℕ
  rungs : List (Rung n)
  deriving DecidableEq, Repr

/-- The steps of `run_commit_ladder`. -/
def Ladder.all (n : ℕ) : List (Rung n) :=
  .flush_wal :: .commit_through .lexical ::
    ((List.finRange n).map fun field => .commit_through (.vector field)) ++
      [.commit_documents, .truncate]

/-! ## The engine -/

/-- The log, the stores and the counters. What is in the log is `wal`, of which
the first `synced` records survive any crash. Nothing in the program holds
`truncated`, the records that the log no longer has, `acknowledged`, those of
the calls that returned, nor how far the records go that calls apply
(`appended`), and that they applied when a store was last persisted
(`persisted`). -/
structure Parts (Id Doc : Type) (n : ℕ) where
  wal : List (LogRecord Id Doc)
  synced : ℕ
  torn : Bool
  next_seq : ℕ
  next_doc_id : ℕ
  store : Part n → Store Id Doc
  pending : List (ℕ × Doc)
  committed : List (ℕ × Doc)
  applied : AppliedSeqs.State
  truncated : List (LogRecord Id Doc)
  acknowledged : List (LogRecord Id Doc)
  appended : ℕ
  persisted : ℕ

namespace Parts

/-- Every record that the log had and no crash lost. -/
def history (p : Parts Id Doc n) : List (LogRecord Id Doc) := p.truncated ++ p.wal

/-! ## Reading -/

/-- `find_doc_ids_by_term` for the `_id` field. -/
def find_doc_ids [DecidableEq Id] (p : Parts Id Doc n) (id : Id) : List ℕ :=
  (List.range p.next_doc_id).filter fun doc_id =>
    ((p.store .lexical).mem doc_id).any fun document => document.1 = id

/-- The document store's `get_document`. -/
def get_document (p : Parts Id Doc n) (doc_id : ℕ) : Option Doc :=
  (p.pending ++ p.committed).lookup doc_id

/-- `get_documents`. -/
def get_documents [DecidableEq Id] (p : Parts Id Doc n) (id : Id) : List Doc :=
  (p.find_doc_ids id).filterMap p.get_document

/-! ## Mutations -/

/-- The record that `append_put` or `append_delete` makes. -/
def record_of (p : Parts Id Doc n) (m : Mutation Id Doc n) : LogRecord Id Doc where
  seq := p.next_seq
  external_id := m.external_id
  doc_ids := m.previous
  upsert := m.request.map fun request => (p.next_doc_id, request.1)
  as_chunk := m.request.any Prod.snd

/-- The numbers of a record are taken. -/
def number (p : Parts Id Doc n) (m : Mutation Id Doc n) : Parts Id Doc n :=
  { p with
    next_seq := p.next_seq + 1
    next_doc_id := if m.request.isSome then p.next_doc_id + 1 else p.next_doc_id }

/-- An append that returns, the log synced or not. -/
def append (p : Parts Id Doc n) (m : Mutation Id Doc n) (sync : Bool) : Parts Id Doc n :=
  let wal := p.wal ++ [p.record_of m]
  { p.number m with
    wal
    synced := if sync then wal.length else p.synced
    appended := wal.length }

/-- An append that fails, the record in the log or not. -/
def append_fails (p : Parts Id Doc n) (m : Mutation Id Doc n) (whole : Bool) : Parts Id Doc n :=
  { p.number m with
    wal := if whole then p.wal ++ [p.record_of m] else p.wal
    torn := true }

/-- What a store becomes. -/
def set_store (p : Parts Id Doc n) (part : Part n) (store : Store Id Doc) : Parts Id Doc n :=
  { p with store := Function.update p.store part store }

/-- One piece of work. -/
def work (p : Parts Id Doc n) : Work Id Doc n → Parts Id Doc n
  | .delete part doc_id => p.set_store part ((p.store part).delete doc_id)
  | .store_document doc_id doc => { p with pending := (doc_id, doc) :: p.pending }
  | .upsert part doc_id document => p.set_store part ((p.store part).upsert doc_id document)

/-- `Applying::finish`, and the call returns. -/
def finish (p : Parts Id Doc n) (record : LogRecord Id Doc) : Parts Id Doc n :=
  { p with
    applied := AppliedSeqs.finish p.applied record.seq
    acknowledged := p.acknowledged ++ [record] }

/-- A piece of work fails or panics, done or not; where it adds a document to a
vector field the lexical store may drop that one. -/
def fail (p : Parts Id Doc n) (next : Work Id Doc n) (done rollback : Bool) : Parts Id Doc n :=
  let p := if done then p.work next else p
  match rollback, next with
  | true, .upsert (.vector _) doc_id _ => p.work (.delete .lexical doc_id)
  | _, _ => p

/-! ## Ladders -/

/-- `flush_wal`. -/
def flush_wal (p : Parts Id Doc n) : Parts Id Doc n := { p with synced := p.wal.length }

/-- `commit_through` of a store. -/
def commit_through (p : Parts Id Doc n) (part : Part n) (wal_seq : ℕ) (cached : Bool) :
    Parts Id Doc n :=
  { p.set_store part ((p.store part).commit_through wal_seq cached) with persisted := p.appended }

/-- A store persists some documents. -/
def persist (p : Parts Id Doc n) (part : Part n) (doc_ids : List ℕ) : Parts Id Doc n :=
  { p.set_store part ((p.store part).persist doc_ids) with persisted := p.appended }

/-- The log's `commit_documents`. -/
def commit_documents (p : Parts Id Doc n) : Parts Id Doc n :=
  { p with committed := p.pending ++ p.committed, pending := [], persisted := p.appended }

/-- `truncate_retaining_after`. -/
def truncate_retaining_after (p : Parts Id Doc n) (wal_seq : ℕ) : Parts Id Doc n :=
  let dropped := p.wal.filter fun record => record.seq ≤ wal_seq
  let wal := p.wal.filter fun record => wal_seq < record.seq
  { p with
    wal
    synced := wal.length
    truncated := p.truncated ++ dropped
    appended := p.appended - dropped.length
    persisted := p.appended - dropped.length }

/-- A step of a ladder. -/
def climb (p : Parts Id Doc n) (applied_before : ℕ) (cached : Bool) : Rung n → Parts Id Doc n
  | .flush_wal => p.flush_wal
  | .commit_through part => p.commit_through part applied_before cached
  | .commit_documents => p.commit_documents
  | .truncate => p.truncate_retaining_after applied_before

/-! ## Closing and opening -/

/-- What a crash, or the end of the process, leaves: of the log the first
`keep` records. -/
def crash (p : Parts Id Doc n) (keep : ℕ) : Parts Id Doc n :=
  let wal := p.wal.take keep
  { p with
    wal
    synced := wal.length
    torn := false
    store := fun part => (p.store part).reopen
    pending := []
    appended := wal.length
    persisted := wal.length }

/-- The vector store's `last_wal_seq`: the least of its fields'. -/
def vector_last_seq (p : Parts Id Doc n) : ℕ :=
  (((List.finRange n).map fun field => (p.store (.vector field)).checkpoint).min?).getD 0

/-- The vector store's `highest_wal_seq`. -/
def highest_wal_seq (p : Parts Id Doc n) : ℕ :=
  ((List.finRange n).map fun field => (p.store (.vector field)).checkpoint).foldl max 0

/-- The checkpoint from which `recover` replays the log to a store. -/
def last_wal_seq (p : Parts Id Doc n) : Part n → ℕ
  | .lexical => (p.store .lexical).checkpoint
  | .vector _ => p.vector_last_seq

/-- What `recover` replays of some records to a store. -/
def replayed (p : Parts Id Doc n) (records : List (LogRecord Id Doc)) (part : Part n) :
    Contents Id Doc :=
  patched LogRecord.value (records.filter fun record => p.last_wal_seq part < record.seq)
    (p.store part).disk

/-- `recover`, up to its commit, which is the action that may follow. -/
def recover (p : Parts Id Doc n) : Parts Id Doc n :=
  let seq_floor := max (p.store .lexical).checkpoint p.highest_wal_seq
  let last_seq := (p.wal.map LogRecord.seq).foldl max seq_floor
  let stored := p.wal.filterMap LogRecord.upsert
  let doc_ids := (stored ++ p.committed).map Prod.fst
  { p with
    next_seq := last_seq + 1
    next_doc_id := doc_ids.foldl max 0 + 1
    store := fun part => { p.store part with mem := p.replayed p.wal part }
    pending := stored.reverse
    applied := AppliedSeqs.raise_to (AppliedSeqs.start 0) last_seq }

/-- A `recover` that fails after some records; the writer that is dropped
persists some of what it replayed to the lexical store. -/
def recover_fails (p : Parts Id Doc n) (count : ℕ) (doc_ids : List ℕ) : Parts Id Doc n :=
  let replayed := { p.store .lexical with mem := p.replayed (p.wal.take count) .lexical }
  p.set_store .lexical (replayed.persist doc_ids).reopen

end Parts

end Engine

open Engine

/-- `Engine`, with its storage: its parts, and the calls and ladders under
way. -/
structure Engine (Id Doc : Type) (n : ℕ) extends Engine.Parts Id Doc n where
  write_stop : Bool
  is_open : Bool
  mutations : List (Mutation Id Doc n)
  ladders : List (Ladder n)

namespace Engine

variable {Id Doc : Type} {n : ℕ} [DecidableEq Id]

/-- A new index, closed. -/
def new (Id Doc : Type) (n : ℕ) : Engine Id Doc n where
  wal := []
  synced := 0
  torn := false
  next_seq := 1
  next_doc_id := 1
  store := fun _ => { mem := fun _ => none, disk := fun _ => none, checkpoint := 0 }
  pending := []
  committed := []
  applied := AppliedSeqs.start 0
  truncated := []
  acknowledged := []
  appended := 0
  persisted := 0
  write_stop := false
  is_open := false
  mutations := []
  ladders := []

/-! ## Calls -/

/-- The mutation of `id`. -/
def mutation (e : Engine Id Doc n) (id : Id) : Option (Mutation Id Doc n) :=
  e.mutations.find? fun m => m.external_id = id

/-- The mutation of `id`, while it has not appended its record. -/
def looking (e : Engine Id Doc n) (id : Id) : Option (Mutation Id Doc n) :=
  (e.mutation id).filter fun m => m.applying.isNone

/-- The mutation of `id`, once it has. -/
def applying (e : Engine Id Doc n) (id : Id) :
    Option (Mutation Id Doc n × LogRecord Id Doc × List (Work Id Doc n)) :=
  (e.mutation id).bind fun m => m.applying.map fun (record, rest) => (m, record, rest)

/-- The mutations of other ids. -/
def others (e : Engine Id Doc n) (id : Id) : List (Mutation Id Doc n) :=
  e.mutations.filter fun m => m.external_id ≠ id

/-- A put or add, with its document and whether it is a chunk, or a delete
takes the lock of its id and looks its versions up; a delete that finds none
has nothing more to do. -/
def begin_mutation (e : Engine Id Doc n) (id : Id) (request : Option (Doc × Bool)) :
    Engine Id Doc n :=
  let previous := if request.any Prod.snd then [] else e.find_doc_ids id
  if request.isNone && previous.isEmpty then e
  else { e with
    mutations := { external_id := id, request, previous, applying := none } :: e.mutations }

/-- How an append ends. -/
inductive AppendEnd
  | returns (sync : Bool)
  | fails (whole : Bool)
  deriving DecidableEq, Repr

/-- The append of a mutation: a log that may end in a part of a record takes no
other, and an append that fails stops writes. -/
def append (e : Engine Id Doc n) (m : Mutation Id Doc n) (outcome : AppendEnd) :
    Engine Id Doc n :=
  if e.torn then { e with write_stop := true, mutations := e.others m.external_id }
  else
    match outcome with
    | .returns sync =>
      let record := e.record_of m
      { e with
        toParts := e.toParts.append m sync
        mutations := { m with applying := some (record, record.work n) } ::
          e.others m.external_id }
    | .fails whole =>
      { e with
        toParts := e.append_fails m whole
        write_stop := true
        mutations := e.others m.external_id }

/-- A mutation does the next piece of its work or, after the last, finishes. -/
def advance (e : Engine Id Doc n) (m : Mutation Id Doc n) (record : LogRecord Id Doc) :
    List (Work Id Doc n) → Engine Id Doc n
  | [] =>
    { e with toParts := e.finish record, mutations := e.others m.external_id }
  | next :: rest =>
    { e with
      toParts := e.work next
      mutations := { m with applying := some (record, rest) } :: e.others m.external_id }

/-! ## Runs -/

/-- What may happen next. -/
inductive Action (Id Doc : Type) (n : ℕ)
  | begin_mutation (id : Id) (request : Option (Doc × Bool))
  /-- A call gives up before its append. -/
  | cancel (id : Id)
  | append (id : Id) (outcome : AppendEnd)
  | advance (id : Id)
  | fail (id : Id) (done rollback : Bool)
  /-- A ladder starts, takes a step, or fails at one. -/
  | commit
  | climb (ladder : ℕ) (cached : Bool)
  | fall (ladder : ℕ)
  | persist (part : Part n) (doc_ids : List ℕ)
  /-- `Engine::drop` while writes are accepted. -/
  | drop (cached : Bool)
  | crash (keep : ℕ)
  | recover
  | recover_fails (count : ℕ) (doc_ids : List ℕ)
  deriving DecidableEq, Repr

/-- The process ends. -/
def close (parts : Parts Id Doc n) : Engine Id Doc n where
  toParts := parts
  write_stop := false
  is_open := false
  mutations := []
  ladders := []

/-- What an action does. -/
def act (e : Engine Id Doc n) : Action Id Doc n → Engine Id Doc n
  | .begin_mutation id request => e.begin_mutation id request
  | .cancel id =>
    match e.looking id with
    | some _ => { e with mutations := e.others id }
    | none => e
  | .append id outcome =>
    match e.looking id with
    | some m => e.append m outcome
    | none => e
  | .advance id =>
    match e.applying id with
    | some (m, record, rest) => e.advance m record rest
    | none => e
  | .fail id done rollback =>
    match e.applying id with
    | some (_, _, next :: _) =>
      { e with
        toParts := e.toParts.fail next done rollback
        write_stop := true
        mutations := e.others id }
    | _ => e
  | .commit => { e with ladders := ⟨e.applied.watermark, Ladder.all n⟩ :: e.ladders }
  | .climb i cached =>
    match e.ladders[i]? with
    | some ⟨applied_before, rung :: rungs⟩ =>
      { e with
        toParts := e.toParts.climb applied_before cached rung
        ladders := e.ladders.set i ⟨applied_before, rungs⟩ }
    | _ => e
  | .fall i =>
    match e.ladders[i]? with
    | some ⟨applied_before, rungs⟩ =>
      -- the commits of other fields may still go on
      { e with ladders := e.ladders.set i ⟨applied_before, rungs.filter fun rung =>
          rung ≠ .truncate ∧ rung ≠ .commit_documents⟩ }
    | none => e
  | .persist part doc_ids => { e with toParts := e.toParts.persist part doc_ids }
  | .drop cached =>
    close ((e.commit_through .lexical e.applied.watermark cached).crash e.wal.length)
  | .crash keep => close (e.toParts.crash keep)
  | .recover => { e with toParts := e.toParts.recover, is_open := true }
  | .recover_fails count doc_ids => { e with toParts := e.toParts.recover_fails count doc_ids }

/-- When an action may come. Mutations and ladders check as they start that
writes have not stopped, and a mutation waits for the lock of its id. -/
def Enabled (e : Engine Id Doc n) : Action Id Doc n → Prop
  | .begin_mutation id _ => e.is_open = true ∧ e.write_stop = false ∧ e.mutation id = none
  | .commit => e.is_open = true ∧ e.write_stop = false
  | .drop _ => e.is_open = true ∧ e.write_stop = false ∧ e.mutations = []
  | .crash keep => e.synced ≤ keep
  | .recover | .recover_fails _ _ => e.is_open = false
  | _ => e.is_open = true

end Engine

end Laurus
