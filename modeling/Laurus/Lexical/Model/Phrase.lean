import Laurus.Common.ArcPath
import Laurus.Common.Gather
import Laurus.Common.SortDedup

/-!
# Phrases and graphs of phrases (`lexical/query/phrase.rs`, `graph_phrase.rs`)

A reader gives the postings of a term: the documents, with the positions of
the term in each as far as they are stored. A phrase asks for one of some
terms at each place, a graph for a phrase on some path. The errors of a
reader, boosts and scores are left out, and so is the length of the longest
path, which only a score uses.
-/

namespace Laurus

/-- What a reader gives of a term and a document. -/
structure TermPosting where
  doc_id : ℕ
  term_freq : ℕ
  positions : List ℕ
  deriving DecidableEq, Repr

/-- `LexicalIndexReader::postings`, of a field and a term. -/
abbrev PostingsReader := String → String → Option (List TermPosting)

/-- The loop over a `PostingIterator`: it ends at `u64::MAX` too. -/
def read_postings (reader : PostingsReader) (field term : String) : List TermPosting :=
  ((reader field term).getD []).takeWhile fun p => p.doc_id ≠ 2 ^ 64 - 1

/-- `PhraseMatch`. -/
structure PhraseMatch where
  doc_id : ℕ
  phrase_freq : ℕ
  positions : List ℕ
  deriving DecidableEq, Repr

/-- `sort_by_key` of matches, by document. -/
def sort_matches (found : List PhraseMatch) : List PhraseMatch :=
  found.insertionSort fun a b => a.doc_id ≤ b.doc_id

/-- `next_in_window`. -/
def next_in_window (occurrences : List ℕ) (previous slop : ℕ) : Option ℕ :=
  occurrences[numbers_below occurrences (previous + 1)]?.filter fun position =>
    position ≤ previous + 1 + slop

/-- What a posting adds to a candidate, a vector for each of `n` slots. -/
def extend_slot (n : ℕ) (slots : Option (List (List ℕ))) (found : ℕ × List ℕ) : List (List ℕ) :=
  (slots.getD (List.replicate n [])).modify found.1 fun positions => positions ++ found.2

/-- The postings of a slot's terms. -/
def slot_postings (reader : PostingsReader) (field : String) (slot : List String × ℕ) :
    List (ℕ × (ℕ × List ℕ)) :=
  slot.1.flatMap fun term =>
    (read_postings reader field term).map fun p => (p.doc_id, (slot.2, p.positions))

/-- The candidates: the documents of any term, with the positions in each
slot. -/
def doc_candidates (reader : PostingsReader) (field : String) (slots : List (List String)) :
    AList fun _ : ℕ => List (List ℕ) :=
  slots.zipIdx.foldl (fun docs slot =>
    gather_into (extend_slot slots.length) docs (slot_postings reader field slot)) ∅

namespace PhraseMatcher

/-- `find_single_term_matches`. -/
def find_single_term_matches (reader : PostingsReader) (field term : String) : List PhraseMatch :=
  (read_postings reader field term).map fun p =>
    ⟨p.doc_id, min p.term_freq (2 ^ 32 - 1), p.positions⟩

/-- `is_valid_phrase_at_position`. -/
def is_valid_phrase_at_position (slop : ℕ) : List (List ℕ) → ℕ → Bool
  | [], _ => true
  | positions :: rest, previous =>
    (next_in_window positions previous slop).any (is_valid_phrase_at_position slop rest)

/-- `find_phrase_positions`. -/
def find_phrase_positions (slots : List (List ℕ)) (slop : ℕ) : List ℕ :=
  match slots with
  | [] => []
  | first :: rest => first.filter fun start_pos => is_valid_phrase_at_position slop rest start_pos

/-- What a candidate gives. -/
def candidate_match (slop : ℕ) (doc_id : ℕ) (slots : List (List ℕ)) : Option PhraseMatch :=
  if slots.any List.isEmpty then none
  else
    let phrase_positions := find_phrase_positions (slots.map sort_dedup) slop
    if phrase_positions.isEmpty then none
    else some ⟨doc_id, phrase_positions.length % 2 ^ 32, phrase_positions⟩

/-- `find_phrase_matches`. -/
def find_phrase_matches (reader : PostingsReader) (field : String) (positions : List (List String))
    (slop : ℕ) : List PhraseMatch :=
  match positions with
  | [] => []
  | [[term]] => find_single_term_matches reader field term
  | _ =>
    if positions.any fun alternatives => alternatives.all fun term => (reader field term).isNone
    then []
    else sort_matches ((doc_candidates reader field positions).entries.filterMap fun candidate =>
      candidate_match slop candidate.1 candidate.2)

end PhraseMatcher

/-- `PhraseArc`. -/
structure PhraseArc where
  start : ℕ
  stop : ℕ
  terms : List String
  deriving DecidableEq, Repr

/-- The order of `(from, to)`. -/
def PhraseArc.le (a b : PhraseArc) : Prop :=
  a.start < b.start ∨ (a.start = b.start ∧ a.stop ≤ b.stop)

instance : DecidableRel PhraseArc.le := fun _ _ => inferInstanceAs (Decidable (_ ∨ _))

/-- `complete_paths`. -/
def complete_paths (arcs : List PhraseArc) (first last : ℕ) : List PhraseArc :=
  let arcs := arcs.insertionSort PhraseArc.le
  let reached := ArcPath.reached PhraseArc.start PhraseArc.stop first arcs
  let reaching := ArcPath.reaching PhraseArc.start PhraseArc.stop last arcs
  let arcs := arcs.filter fun arc => arc.start ∈ reached ∧ arc.stop ∈ reaching
  let nodes := sort_dedup (arcs.flatMap fun arc => [arc.start, arc.stop])
  arcs.map fun arc => { arc with start := nodes.idxOf arc.start, stop := nodes.idxOf arc.stop }

/-- The last node of arcs that start at node 0, as `from_arcs` finds it. -/
def last_node (arcs : List PhraseArc) : ℕ := ((arcs.map PhraseArc.stop).max?).getD 0

/-- The states of the nodes, and the node whose states were sorted last. -/
structure AnchorWalk where
  states : ℕ → List (ℕ × ℕ)
  settled : ℕ

namespace AnchorWalk

/-- The order of `(anchor, previous)`. -/
def state_le (a b : ℕ × ℕ) : Prop := a.1 < b.1 ∨ (a.1 = b.1 ∧ a.2 ≤ b.2)

instance : DecidableRel state_le := fun _ _ => inferInstanceAs (Decidable (_ ∨ _))

/-- The states of a node, sorted and deduplicated once. -/
def settle (walk : AnchorWalk) (node : ℕ) : AnchorWalk :=
  if node ≠ walk.settled then
    { states := Function.update walk.states node
        ((walk.states node).insertionSort state_le).dedup
      settled := node }
  else walk

/-- More states of a node. -/
def reach (walk : AnchorWalk) (node : ℕ) (more : List (ℕ × ℕ)) : AnchorWalk :=
  { walk with states := Function.update walk.states node (walk.states node ++ more) }

/-- One arc of `complete_anchors`, with the positions of its terms. -/
def step (slop : ℕ) (walk : AnchorWalk) (arc : PhraseArc × List ℕ) : AnchorWalk :=
  if arc.1.start = 0 then walk.reach arc.1.stop (arc.2.map fun position => (position, position))
  else
    let walk := walk.settle arc.1.start
    walk.reach arc.1.stop ((walk.states arc.1.start).filterMap fun state =>
      (next_in_window arc.2 state.2 slop).map fun position => (state.1, position))

end AnchorWalk

/-- `complete_anchors`. -/
def complete_anchors (arcs : List PhraseArc) (last : ℕ) (occurrences : List (List ℕ)) (slop : ℕ) :
    List ℕ :=
  let walk := (arcs.zip occurrences).foldl (AnchorWalk.step slop) ⟨fun _ => [], 0⟩
  sort_dedup ((walk.states last).map Prod.fst)

/-- `GraphPhraseQuery`, over arcs as `complete_paths` returns them. -/
structure GraphPhraseQuery where
  field : String
  arcs : List PhraseArc
  slop : ℕ
  /-- "arcs must go forward" -/
  forward : ArcPath.Forward PhraseArc.start PhraseArc.stop arcs
  /-- "arcs must be sorted by (from, to)" -/
  sorted : arcs.Pairwise PhraseArc.le

namespace GraphPhraseQuery

/-- `last`. -/
def last (q : GraphPhraseQuery) : ℕ := last_node q.arcs

/-- The distinct terms, in the order of their first arcs. -/
def terms (q : GraphPhraseQuery) : List String := (q.arcs.flatMap PhraseArc.terms).eraseDups

/-- The ids of the terms of each arc. -/
def arc_terms (q : GraphPhraseQuery) : List (List ℕ) :=
  q.arcs.map fun arc => arc.terms.map fun term => q.terms.idxOf term

/-- The positions of the terms of an arc. -/
def merged_positions (positions : List (List ℕ)) : List ℕ → List ℕ
  | [id] => positions.getD id []
  | ids => sort_dedup (ids.flatMap fun id => positions.getD id [])

/-- What a candidate gives. -/
def candidate_match (q : GraphPhraseQuery) (doc_id : ℕ) (positions : List (List ℕ)) :
    Option PhraseMatch :=
  let positions := positions.map sort_dedup
  let anchors := complete_anchors q.arcs q.last (q.arc_terms.map (merged_positions positions)) q.slop
  if anchors.isEmpty then none
  else some ⟨doc_id, min anchors.length (2 ^ 32 - 1), anchors⟩

/-- `find_matches`. -/
def find_matches (q : GraphPhraseQuery) (reader : PostingsReader) : List PhraseMatch :=
  sort_matches ((doc_candidates reader q.field (q.terms.map fun term => [term])).entries.filterMap
    fun candidate => q.candidate_match candidate.1 candidate.2)

end GraphPhraseQuery

end Laurus
