import Laurus.Common.Run
import Mathlib.Data.List.Basic
import Mathlib.Data.UInt
import Mathlib.Tactic.Ring

/-!
# Posting lists in memory (`core/posting.rs`)

A list is kept ascending by document, so the binary search of `add_posting`
is a walk to the first document that is no smaller. A weight is its `f32`
bits. The estimates of heap bytes are left out.
-/

namespace Laurus

/-!
## The skip table (`core/posting.rs`, `build_skip_levels`)

Level `k` holds the last document of each window of
`SKIP_INTERVAL ^ (k + 1)` postings; `skip_level_shape` gives each level's
stride and length, `skip_levels_match` compares a table with it in place.
-/

/-- `SKIP_INTERVAL`. -/
def SKIP_INTERVAL : ℕ := 8

/-- `usize::checked_mul`. -/
def checked_mul (a b : ℕ) : Option ℕ := if a * b < 2 ^ 64 then some (a * b) else none

/-- The iterator `skip_level_shape` returns, from the stride `step` on. A
stride is a `usize` power of `SKIP_INTERVAL`, so it has at most 21 turns. -/
def skip_level_shape_from (n : ℕ) : ℕ → ℕ → List (ℕ × ℕ)
  | 0, _ => []
  | turns + 1, current =>
    let len := n / current
    if len = 0 then []
    else
      (current, len) ::
        if len ≤ 1 then []
        else match checked_mul current SKIP_INTERVAL with
          | some step => skip_level_shape_from n turns step
          | none => []

/-- `skip_level_shape`. -/
def skip_level_shape (n : ℕ) : List (ℕ × ℕ) :=
  if SKIP_INTERVAL ≤ n then skip_level_shape_from n 21 SKIP_INTERVAL else []

/-- One level: the last document of each of `len` windows of `step`. -/
def skip_level (doc_ids : List UInt32) (step len : ℕ) : List UInt32 :=
  (List.range len).map fun i => doc_ids.getD ((i + 1) * step - 1) 0

/-- `build_skip_levels`. -/
def build_skip_levels (doc_ids : List UInt32) : List (List UInt32) :=
  (skip_level_shape doc_ids.length).map fun (step, len) => skip_level doc_ids step len

/-- The bits of the `f32` 1.0; no other bits compare equal to it. -/
def F32_ONE : UInt32 := 0x3F800000

/-- `Posting`. -/
structure Posting where
  doc_id : UInt64
  frequency : UInt32
  positions : Option (List UInt32)
  weight : UInt32
  deriving DecidableEq, Repr

namespace Posting

def with_frequency (doc_id : UInt64) (frequency : UInt32) : Posting :=
  { doc_id, frequency, positions := none, weight := F32_ONE }

def with_positions (doc_id : UInt64) (positions : List UInt32) : Posting :=
  { doc_id, frequency := UInt32.ofNat positions.length, positions := some positions,
    weight := F32_ONE }

end Posting

/-- `PostingList`. -/
structure PostingList where
  term : String
  postings : List Posting
  total_frequency : UInt64
  doc_frequency : UInt64
  deriving DecidableEq, Repr

namespace PostingList

def new (term : String) : PostingList :=
  { term, postings := [], total_frequency := 0, doc_frequency := 0 }

/-- `add_posting` on a document that is already there; the weight stays. -/
def merge (existing posting : Posting) : Posting :=
  { existing with
    frequency := existing.frequency + posting.frequency
    positions := match posting.positions with
      | none => existing.positions
      | some new_positions =>
        match existing.positions with
        | some positions => some (positions ++ new_positions)
        | none => some new_positions }

/-- The postings with one put in, and whether its document was new. -/
def put (posting : Posting) : List Posting → List Posting × Bool
  | [] => ([posting], true)
  | existing :: postings =>
    if existing.doc_id < posting.doc_id then
      let (postings, fresh) := put posting postings
      (existing :: postings, fresh)
    else if existing.doc_id = posting.doc_id then (merge existing posting :: postings, false)
    else (posting :: existing :: postings, true)

/-- `add_posting`. -/
def add_posting (list : PostingList) (posting : Posting) : PostingList :=
  let (postings, fresh) := put posting list.postings
  { list with
    postings
    total_frequency := list.total_frequency + posting.frequency.toUInt64
    doc_frequency := if fresh then list.doc_frequency + 1 else list.doc_frequency }

/-- The sum `retain_docs` recomputes. -/
def sum_frequencies (postings : List Posting) : UInt64 :=
  postings.foldl (fun sum p => sum + p.frequency.toUInt64) 0

end PostingList

/-- `TermPostingIndex`. -/
structure TermPostingIndex where
  terms : List (String × PostingList)
  doc_count : UInt64
  term_count : UInt64
  deriving DecidableEq, Repr

namespace TermPostingIndex

def new : TermPostingIndex := { terms := [], doc_count := 0, term_count := 0 }

/-- `get_posting_list`. -/
def get_posting_list (index : TermPostingIndex) (term : String) : Option PostingList :=
  index.terms.lookup term

/-- `add_posting`. -/
def add_posting (index : TermPostingIndex) (term : String) (posting : Posting) :
    TermPostingIndex :=
  match index.get_posting_list term with
  | some _ =>
    { index with
      terms := index.terms.map fun entry =>
        if entry.1 = term then (entry.1, entry.2.add_posting posting) else entry }
  | none =>
    { index with
      terms := (term, (PostingList.new term).add_posting posting) :: index.terms
      term_count := index.term_count + 1 }

/-- The posting `add_document` makes of one term's entry. -/
def posting_of (doc_id : UInt64) (entry : String × UInt32 × Option (List UInt32)) : Posting :=
  match entry.2.2 with
  | some positions => Posting.with_positions doc_id positions
  | none => Posting.with_frequency doc_id entry.2.1

/-- `add_document`. -/
def add_document (index : TermPostingIndex) (doc_id : UInt64)
    (terms : List (String × UInt32 × Option (List UInt32))) : TermPostingIndex :=
  let index := terms.foldl (fun index entry => index.add_posting entry.1 (posting_of doc_id entry))
    index
  { index with doc_count := max index.doc_count (doc_id + 1) }

/-- One list of `retain_docs`. -/
def retain_list (keep : UInt64 → Bool) (list : PostingList) : PostingList :=
  let postings := list.postings.filter fun p => keep p.doc_id
  { list with
    postings
    doc_frequency := UInt64.ofNat postings.length
    total_frequency := PostingList.sum_frequencies postings }

/-- `retain_docs`: a list that ends up empty is dropped. -/
def retain_docs (index : TermPostingIndex) (keep : UInt64 → Bool) : TermPostingIndex × UInt64 :=
  let lists := index.terms.map fun entry => (entry.1, retain_list keep entry.2)
  let terms := lists.filter fun entry => ! entry.2.postings.isEmpty
  ({ index with terms, term_count := UInt64.ofNat terms.length },
    lists.foldl (fun remaining entry => remaining + entry.2.doc_frequency) 0)

/-! ## Runs of an index -/

/-- A call on an index. -/
inductive Call
  | add_posting (term : String) (posting : Posting)
  | add_document (doc_id : UInt64) (terms : List (String × UInt32 × Option (List UInt32)))
  | retain_docs (keep : UInt64 → Bool)

/-- What a call does. -/
def apply (index : TermPostingIndex) : Call → TermPostingIndex
  | .add_posting term posting => index.add_posting term posting
  | .add_document doc_id terms => index.add_document doc_id terms
  | .retain_docs keep => (index.retain_docs keep).1

/-- The calls as steps. -/
def step : Step TermPostingIndex Call := fun index call index' => index' = index.apply call

end TermPostingIndex

end Laurus
