import Laurus.Matcher.Model.Matcher
import Laurus.Search.Model.Collector
import Laurus.Search.Model.Scorer
import Mathlib.Data.List.FinRange

/-!
# Block-Max-WAND (`inverted/bmw.rs`)

The executor of a Should-only query: its clauses are indexed as the source's
vector is, and the active ones are a list of indices. A turn of the loop of
`run` is `iterate`. The deadline and `needs_more`, which is always true for
a `TopDocsCollector`, are left out; the frequency that a clause's matcher
reports is a function of the document it is on.
-/

namespace Laurus

variable {𝕜 σ : Type} [Field 𝕜] [LinearOrder 𝕜]

/-- `BmwClause`. -/
structure BmwClause (𝕜 σ : Type) [Field 𝕜] [LinearOrder 𝕜] where
  scorer : BM25Scorer 𝕜
  matcher : σ
  term_freqs : ℕ → ℕ

namespace BmwClause

variable (ops : MatcherOps σ)

def doc_id (c : BmwClause 𝕜 σ) : ℕ := ops.doc_id c.matcher

def term_freq (c : BmwClause 𝕜 σ) : ℕ := c.term_freqs (c.doc_id ops)

/-- Still iterating. -/
def live (c : BmwClause 𝕜 σ) : Bool :=
  ! ops.is_exhausted c.matcher && c.doc_id ops != END

def next (c : BmwClause 𝕜 σ) : Option (BmwClause 𝕜 σ) :=
  (ops.next c.matcher).map fun moved => { c with matcher := moved.2 }

def skip_to (target : ℕ) (c : BmwClause 𝕜 σ) : Option (BmwClause 𝕜 σ) :=
  (ops.skip_to c.matcher target).map fun moved => { c with matcher := moved.2 }

/-- A clause lagging behind is brought to `target`. -/
def catch_up (target : ℕ) (c : BmwClause 𝕜 σ) : Option (BmwClause 𝕜 σ) :=
  if c.doc_id ops < target then c.skip_to ops target else some c

end BmwClause

/-- `BlockMaxOrExecutor`. -/
structure BlockMaxOrExecutor (𝕜 σ : Type) [Field 𝕜] [LinearOrder 𝕜] (n : ℕ) where
  clauses : Fin n → BmwClause 𝕜 σ

/-- The variables of the loop of `run`. -/
structure BmwState (𝕜 σ : Type) [Field 𝕜] [LinearOrder 𝕜] (n : ℕ) where
  clauses : Fin n → BmwClause 𝕜 σ
  active : List (Fin n)
  collector : TopDocsCollector 𝕜

/-- How a turn ends: `break`, or the next turn. -/
inductive BmwTurn (𝕜 σ : Type) [Field 𝕜] [LinearOrder 𝕜] (n : ℕ)
  | stop
  | more (st : BmwState 𝕜 σ n)

namespace BlockMaxOrExecutor

variable {n : ℕ}

/-- `new`: the outer boost goes into each clause's own. -/
def new (outer_boost : 𝕜) (clauses : Fin n → BmwClause 𝕜 σ) : BlockMaxOrExecutor 𝕜 σ n where
  clauses i :=
    let c := clauses i
    if outer_boost = 1 then c
    else { c with scorer := c.scorer.set_boost (c.scorer.boost * outer_boost) }

section Loop

variable (ops : MatcherOps σ) (clauses : Fin n → BmwClause 𝕜 σ)

/-- The order of `sort_by_key`. -/
def doc_order (i j : Fin n) : Prop := (clauses i).doc_id ops ≤ (clauses j).doc_id ops

instance : DecidableRel (doc_order ops clauses) := fun i j =>
  inferInstanceAs (Decidable ((clauses i).doc_id ops ≤ (clauses j).doc_id ops))

/-- The scan for the pivot, from a prefix sum on. -/
def find_pivot (min_comp : WithBot 𝕜) : 𝕜 → List (Fin n) → Option ℕ
  | _, [] => none
  | sum, i :: rest =>
    let sum := sum + (clauses i).scorer.block_max_score_at ((clauses i).doc_id ops)
    if min_comp < (sum : WithBot 𝕜) then some 0
    else (find_pivot min_comp sum rest).map (· + 1)

/-- How many of the clauses behind the pivot are on its document. -/
def aligned (pivot_doc : ℕ) : List (Fin n) → ℕ
  | [] => 0
  | i :: rest => if (clauses i).doc_id ops = pivot_doc then aligned pivot_doc rest + 1 else 0

/-- The least of the boundaries and of `next`. -/
def nearest_boundary (pivot_doc : ℕ) : ℕ → List (Fin n) → ℕ
  | next, [] => next
  | next, i :: rest =>
    match (clauses i).scorer.next_block_boundary pivot_doc with
    | some boundary => nearest_boundary pivot_doc (min next boundary) rest
    | none => nearest_boundary pivot_doc next rest

/-- A call on each of some clauses. -/
def for_each (call : BmwClause 𝕜 σ → Option (BmwClause 𝕜 σ)) :
    List (Fin n) → (Fin n → BmwClause 𝕜 σ) → Option (Fin n → BmwClause 𝕜 σ)
  | [], clauses => some clauses
  | i :: rest, clauses => do
    let c ← call (clauses i)
    for_each call rest (Function.update clauses i c)

/-- What the pivot side does, its last index being `last`. -/
def advance (pivot_doc last : ℕ) (min_comp : WithBot 𝕜) (active : List (Fin n))
    (collector : TopDocsCollector 𝕜) :
    Option ((Fin n → BmwClause 𝕜 σ) × TopDocsCollector 𝕜) := do
  let pivot_side := active.take (last + 1)
  let block_sum :=
    (pivot_side.map fun i => (clauses i).scorer.current_block_max_score pivot_doc).sum
  if min_comp < (block_sum : WithBot 𝕜) then
    if (active.head?.map fun i => (clauses i).doc_id ops) = some pivot_doc then
      let total_score := (pivot_side.map fun i =>
        (clauses i).scorer.score pivot_doc ((clauses i).term_freq ops : 𝕜) none).sum
      let clauses ← for_each (BmwClause.next ops) pivot_side clauses
      return (clauses, collector.collect pivot_doc total_score)
    else
      let clauses ← for_each (BmwClause.catch_up ops pivot_doc) pivot_side clauses
      return (clauses, collector)
  else
    let next := (active[last + 1]?.map fun i => (clauses i).doc_id ops).getD END
    let next := nearest_boundary clauses pivot_doc next pivot_side
    let clauses ← for_each (BmwClause.skip_to ops next) pivot_side clauses
    return (clauses, collector)

/-- One turn. -/
def iterate (st : BmwState 𝕜 σ n) : Option (BmwTurn 𝕜 σ n) :=
  if st.active.isEmpty then some .stop
  else
    let active := st.active.insertionSort (doc_order ops st.clauses)
    let min_comp := st.collector.min_competitive
    match find_pivot ops st.clauses min_comp 0 active with
    | none => some .stop
    | some pivot =>
      match active[pivot]? with
      | none => none
      | some i =>
        let pivot_doc := (st.clauses i).doc_id ops
        let last := pivot + aligned ops st.clauses pivot_doc (active.drop (pivot + 1))
        (advance ops st.clauses pivot_doc last min_comp active st.collector).map fun moved =>
          .more {
            clauses := moved.1
            active := active.filter fun i => (moved.1 i).live ops
            collector := moved.2 }

/-- The loop. -/
def run_loop : ℕ → BmwState 𝕜 σ n → Option (TopDocsCollector 𝕜)
  | 0, _ => none
  | turns + 1, st => do
    match ← iterate ops st with
    | .stop => return st.collector
    | .more st => run_loop turns st

/-- The state in which the loop is entered. -/
def start (self : BlockMaxOrExecutor 𝕜 σ n) (collector : TopDocsCollector 𝕜) :
    BmwState 𝕜 σ n where
  clauses := self.clauses
  active := (List.finRange n).filter fun i => (self.clauses i).live ops
  collector

/-- `run`, at most `turns` turns long. -/
def run (self : BlockMaxOrExecutor 𝕜 σ n) (turns : ℕ) (collector : TopDocsCollector 𝕜) :
    Option (TopDocsCollector 𝕜) := run_loop ops turns (self.start ops collector)

end Loop

end BlockMaxOrExecutor

end Laurus
