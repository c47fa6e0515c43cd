import Laurus.Common.Comp
import Laurus.Matcher.Model.Matcher

/-!
# Boolean queries (`lexical/query/boolean.rs`)

A query is a boolean one or any other, a leaf, whose matcher, rewriting and
cache key are what `Backend` gives. A search reads and fills the reader's
filter cache (`lexical/index/inverted/query_cache.rs`), so building a matcher
is a computation over the cache; it fails only where a loop of a matcher
would not return. The matchers of a level of clauses are trees, and each
combinator over them is given the calls on trees of their depth.

Boosts and scores play no part in which documents match, nor do the cache's
counters, and they are left out.
-/

namespace Laurus

/-- `Occur`. -/
inductive Occur
  | must
  | should
  | must_not
  | filter
  deriving DecidableEq, Repr

/-- A query; `BooleanQuery` has its clauses and the count of them that should
match. -/
inductive Query (L : Type)
  | leaf (query : L)
  | boolean (clauses : List (Occur × Query L)) (minimum_should_match : ℕ)

/-! ## The filter cache -/

/-- `QueryFilterCache`: the keys and the documents they stand for, the most
recently used first. -/
structure QueryFilterCache where
  capacity : ℕ
  entries : List (List Char × List ℕ)
  deriving DecidableEq, Repr

namespace QueryFilterCache

def new (capacity : ℕ) : QueryFilterCache := { capacity, entries := [] }

/-- The entries but the one at `key`. -/
def without (cache : QueryFilterCache) (key : List Char) : List (List Char × List ℕ) :=
  cache.entries.filter fun entry => entry.1 ≠ key

/-- A hit becomes the most recent entry. -/
def get (cache : QueryFilterCache) (key : List Char) : Option (List ℕ) × QueryFilterCache :=
  match cache.entries.lookup key with
  | some docs => (some docs, { cache with entries := (key, docs) :: cache.without key })
  | none => (none, cache)

/-- The least recent entry makes room; a cache of no capacity keeps nothing. -/
def put (cache : QueryFilterCache) (key : List Char) (docs : List ℕ) : QueryFilterCache :=
  { cache with entries := ((key, docs) :: cache.without key).take cache.capacity }

end QueryFilterCache

/-! ## What a boolean query calls -/

/-- The other queries and the reader. -/
structure Backend (L : Type) where
  /-- `Query::matcher` of a leaf, a tree of depth at most `leaf_depth`. -/
  matcher : L → Matcher
  leaf_depth : ℕ
  /-- `Query::rewrite` of a leaf. -/
  rewrite : L → Option (Query L)
  /-- `Query::cache_key` of a leaf. -/
  cache_key : L → Option (List Char)
  /-- `LexicalIndexReader::live_doc_ids`. -/
  live_doc_ids : List ℕ
  /-- Whether the reader has a cache that `cached_filter_doc_ids` reaches. -/
  has_cache : Bool
  /-- Which characters `{:?}` writes as a code point. -/
  unprintable : Char → Bool

/-- Matching, over the filter cache. -/
abbrev Search := Comp Unit QueryFilterCache

/-- The answer of a matcher's call, if it returns. -/
def Search.lift {α : Type} : Option α → Search α
  | some a => pure a
  | none => throw ()

variable {L : Type} (B : Backend L)

/-- The depth of the matchers of queries of so many levels: each level puts at
most three combinators on one another. -/
def Backend.depth (levels : ℕ) : ℕ := B.leaf_depth + 1 + 3 * levels

/-! ## Cache keys -/

namespace Query

/-- How `{:?}` writes a character of a string. -/
def escape_debug (c : Char) : List Char :=
  if c = '\x00' then ['\\', '0']
  else if c = '\t' then ['\\', 't']
  else if c = '\r' then ['\\', 'r']
  else if c = '\n' then ['\\', 'n']
  else if c = '\\' ∨ c = '\x22' then ['\\', c]
  else if B.unprintable c then
    '\\' :: 'u' :: '\x7b' :: (Nat.toDigits 16 c.toNat ++ ['\x7d'])
  else [c]

/-- How `{:?}` writes a string. -/
def debug (s : List Char) : List Char :=
  '\x22' :: (s.flatMap (escape_debug B) ++ ['\x22'])

/-- The tag of a clause in a key. -/
def tag : Occur → Char
  | .must => 'M'
  | .should => 'S'
  | .must_not => 'N'
  | .filter => 'F'

mutual

/-- `cache_key`: none where no clause is positive. -/
def cache_key : Query L → Option (List Char)
  | leaf query => B.cache_key query
  | boolean clauses minimum_should_match =>
    if clauses.any fun clause => clause.1 ≠ .must_not then do
      let parts ← clause_keys clauses
      return "bool|msm=".toList ++ Nat.toDigits 10 minimum_should_match ++ '|' :: parts
    else none

/-- The clauses' part of a key; one clause without a key leaves none. -/
def clause_keys : List (Occur × Query L) → Option (List Char)
  | [] => some []
  | (occur, query) :: clauses => do
    let child ← cache_key query
    let rest ← clause_keys clauses
    return tag occur :: (debug B child ++ ';' :: rest)

end

/-! ## Rewriting -/

mutual

/-- `rewrite`: none where no clause was rewritten. -/
def rewrite : Query L → Option (Query L)
  | leaf query => B.rewrite query
  | boolean clauses minimum_should_match =>
    let (rewritten_any, clauses) := rewrite_clauses clauses
    if rewritten_any then some (boolean clauses minimum_should_match) else none

/-- The loop over the clauses; a `Filter` clause is left alone. -/
def rewrite_clauses : List (Occur × Query L) → Bool × List (Occur × Query L)
  | [] => (false, [])
  | (occur, query) :: clauses =>
    let lowered := match occur with
      | .should | .must | .must_not => rewrite query
      | .filter => none
    let (rewritten_any, clauses) := rewrite_clauses clauses
    match lowered with
    | some query => (true, (occur, query) :: clauses)
    | none => (rewritten_any, (occur, query) :: clauses)

end

/-! ## Matching

`query_matcher` is the matcher of a subquery, a tree of depth at most `depth`. -/

section Matching

variable (query_matcher : Query L → Search Matcher) (depth : ℕ)

/-- `drain_matching`. -/
def drain_matching (query : Query L) : Search (List ℕ) := do
  let matcher ← query_matcher query
  Search.lift (drain_matcher (Matcher.ops depth) (2 ^ 64) matcher)

/-- `InvertedIndexReader::matching_doc_ids`. -/
def matching_doc_ids (query : Query L) : Search (List ℕ) :=
  match cache_key B query with
  | some key => do
    let cache ← get
    match cache.get key with
    | (some docs, cache) => do
      set cache
      return docs
    | (none, cache) => do
      set cache
      let docs ← drain_matching query_matcher depth query
      let cache ← get
      set (cache.put key docs)
      return docs
  | none => drain_matching query_matcher depth query

/-- `clause_matcher`. -/
def clause_matcher (clause : Occur × Query L) : Search Matcher :=
  if clause.1 = .filter ∧ (cache_key B clause.2).isSome ∧ B.has_cache then do
    let docs ← matching_doc_ids B query_matcher depth clause.2
    return .precomputed (PreComputedMatcher.new docs)
  else query_matcher clause.2

/-- `clauses_by_occur`. -/
def clauses_by_occur (clauses : List (Occur × Query L)) (occur : Occur) :
    List (Occur × Query L) := clauses.filter fun clause => clause.1 = occur

/-- The loops that collect the matchers of clauses, without the exhausted ones. -/
def live_matchers : List (Occur × Query L) → Search (List Matcher)
  | [] => pure []
  | clause :: clauses => do
    let matcher ← query_matcher clause.2
    let matchers ← live_matchers clauses
    return if matcher.is_exhausted then matchers else matcher :: matchers

/-- The loop that collects the matchers of several required clauses; it stops
at an exhausted one. -/
def required_matchers : List (Occur × Query L) → Search (Option (List Matcher))
  | [] => pure (some [])
  | clause :: clauses => do
    let matcher ← clause_matcher B query_matcher depth clause
    if matcher.is_exhausted then return none
    else do
      let matchers ← required_matchers clauses
      return matchers.map (matcher :: ·)

/-- The positive matcher of the required clauses, or of the present, live
documents where there are none; `none` when a required clause is exhausted. -/
def positive_matcher : List (Occur × Query L) → Search (Option Matcher)
  | [] => pure (some (.precomputed (PreComputedMatcher.new B.live_doc_ids)))
  | [clause] => do
    let matcher ← clause_matcher B query_matcher depth clause
    return some matcher
  | clauses => do
    match ← required_matchers B query_matcher depth clauses with
    | none => return none
    | some matchers => do
      let m ← Search.lift (ConjunctionMatcher.new (Matcher.ops depth) matchers)
      return some (.conjunction m)

/-- One matcher for several, of which any may match. -/
def should_matcher : List Matcher → Matcher
  | [matcher] => matcher
  | matchers => .disjunction (DisjunctionMatcher.new (Matcher.ops depth) matchers)

/-- The `MustNot` clauses at the end of both branches. -/
def exclude (positive : Matcher) (must_not_clauses : List (Occur × Query L)) : Search Matcher :=
  if must_not_clauses.isEmpty then pure positive
  else do
    let negative_matchers ← live_matchers query_matcher must_not_clauses
    if negative_matchers.isEmpty then return positive
    else do
      let m ← Search.lift
        (ConjunctionNotMatcher.new (Matcher.ops (depth + 2)) positive negative_matchers)
      return .conjunction_not m

/-- `BooleanQuery::matcher`. -/
def boolean_matcher (clauses : List (Occur × Query L)) (minimum_should_match : ℕ) :
    Search Matcher :=
  if clauses.isEmpty then pure .empty
  else
    let must_clauses := clauses_by_occur clauses .must
    let filter_clauses := clauses_by_occur clauses .filter
    let should_clauses := clauses_by_occur clauses .should
    let must_not_clauses := clauses_by_occur clauses .must_not
    let required_clauses := must_clauses ++ filter_clauses
    if required_clauses ≠ [] ∨ (must_not_clauses ≠ [] ∧ should_clauses = []) then do
      match ← positive_matcher B query_matcher depth required_clauses with
      | none => return .empty
      | some positive =>
        if 0 < minimum_should_match ∧ should_clauses ≠ [] then do
          let should_matchers ← live_matchers query_matcher should_clauses
          if should_matchers ≠ [] then do
            let both ← Search.lift (ConjunctionMatcher.new (Matcher.ops (depth + 1))
              [positive, should_matcher depth should_matchers])
            exclude query_matcher depth (.conjunction both) must_not_clauses
          else if required_clauses ≠ [] then return .empty
          else exclude query_matcher depth positive must_not_clauses
        else exclude query_matcher depth positive must_not_clauses
    else if should_clauses ≠ [] then do
      let should_matchers ← live_matchers query_matcher should_clauses
      if should_matchers.isEmpty then return .empty
      else exclude query_matcher depth (should_matcher depth should_matchers) must_not_clauses
    else pure .empty

end Matching

mutual

/-- The levels of boolean queries in a query. -/
def levels : Query L → ℕ
  | leaf _ => 0
  | boolean clauses _ => clause_levels clauses + 1

/-- The greatest number of levels. -/
def clause_levels : List (Occur × Query L) → ℕ
  | [] => 0
  | (_, query) :: clauses => max (levels query) (clause_levels clauses)

end

/-- `Query::matcher`, for queries of at most so many levels. -/
def matcher : ℕ → Query L → Search Matcher
  | _, leaf query => pure (B.matcher query)
  | 0, boolean _ _ => throw ()
  | levels + 1, boolean clauses minimum_should_match =>
    boolean_matcher B (matcher levels) (B.depth levels) clauses minimum_should_match

end Query

end Laurus
