import Laurus.Analysis.Model.Token
import Mathlib.Data.List.AList
import Mathlib.Data.List.Sort
import Mathlib.Data.String.Basic

/-!
# The synonym filter (`analysis/synonym/graph_builder.rs`, `analysis/token_filter/synonym_graph.rs`)

A tokenizer is the texts of the tokens it splits a synonym into, or a failure.
The boost of synonyms is left out, as tokens have none here. What `none` stands
for is a panic on an index out of range.
-/

namespace Laurus

/-!
## The synonym dictionary (`analysis/synonym/dictionary.rs`)

The FST is its keys and values in ascending order of the keys. What it is built
from are keys that are sorted and each there once, so building it does not fail
and nothing panics where it is built again. Loading the groups from a file is
left out.
-/

/-- White space, as `char::is_whitespace` has it. -/
def char_is_whitespace (c : Char) : Bool :=
  let n := c.toNat
  (9 ≤ n && n ≤ 13) || n == 0x20 || n == 0x85 || n == 0xA0 || n == 0x1680 ||
    (0x2000 ≤ n && n ≤ 0x200A) || n == 0x2028 || n == 0x2029 || n == 0x202F || n == 0x205F ||
    n == 0x3000

/-- `str::split_whitespace`. -/
def split_whitespace (s : String) : List String :=
  ((s.toList.splitOnP char_is_whitespace).filter fun word => !word.isEmpty).map String.ofList

/-- `SynonymDictionary`. -/
structure SynonymDictionary where
  /-- The FST: a term and the place of its synonyms. -/
  fst_map : List (String × ℕ)
  synonym_lists : List (List String)
  max_phrase_length : ℕ

namespace SynonymDictionary

/-- How many tokens a term may be. -/
def phrase_words (t : String) : ℕ :=
  let word_count := (split_whitespace t).length
  if word_count = 1 then
    let has_ascii := t.toList.any Char.isAlphanum
    let char_count := t.toList.length
    if !has_ascii ∧ 3 < char_count then (char_count + 1) / 2 else 1
  else word_count

/-- The most tokens of a term of a group. -/
def max_words (group : List String) : ℕ := ((group.map phrase_words).max?).getD 1

/-- `term_to_synonyms`. -/
abbrev Terms := AList fun _ : String => List String

/-- Each term of a group gets the others; what it had before is overwritten. -/
def insert_group (term_to_synonyms : Terms) (group : List String) : Terms :=
  group.zipIdx.foldl
    (fun terms entry => terms.insert entry.1 (group.eraseIdx entry.2)) term_to_synonyms

/-- The FST and the lists of `term_to_synonyms`. -/
def of_terms (term_to_synonyms : Terms) (max_phrase_length : ℕ) : SynonymDictionary :=
  let sorted_terms := term_to_synonyms.keys.insertionSort (· ≤ ·)
  { fst_map := sorted_terms.zipIdx
    synonym_lists := sorted_terms.map fun term => (term_to_synonyms.lookup term).getD []
    max_phrase_length }

/-- `from_synonym_groups`. -/
def from_synonym_groups (synonym_groups : List (List String)) : SynonymDictionary :=
  of_terms (synonym_groups.foldl insert_group ∅)
    (synonym_groups.foldl
      (fun longest group => if group = [] then longest else max longest (max_words group)) 1)

/-- `SynonymDictionary::new`, without a file. -/
def new : SynonymDictionary :=
  { fst_map := [], synonym_lists := [], max_phrase_length := 1 }

/-- `get_synonyms`. -/
def get_synonyms (dict : SynonymDictionary) (term : String) : Option (List String) := do
  let index ← dict.fst_map.lookup term
  dict.synonym_lists[index]?

/-- One turn of `add_synonym_group`'s loop over the FST: `all_groups` and
`processed_terms`. -/
def collect_group (synonym_lists : List (List String))
    (st : List (List String) × List String) (entry : String × ℕ) :
    List (List String) × List String :=
  if entry.1 ∈ st.2 then st
  else match synonym_lists[entry.2]? with
    | some synonyms => (st.1 ++ [entry.1 :: synonyms], st.2 ++ entry.1 :: synonyms)
    | none => st

/-- The groups that `add_synonym_group` finds in the dictionary. -/
def all_groups (dict : SynonymDictionary) : List (List String) :=
  (dict.fst_map.foldl (collect_group dict.synonym_lists) ([], [])).1

/-- `add_synonym_group`. -/
def add_synonym_group (dict : SynonymDictionary) (terms : List String) : SynonymDictionary :=
  from_synonym_groups (dict.all_groups ++ [terms])

end SynonymDictionary

/-- `SynonymGraphBuilder`. -/
structure SynonymGraphBuilder where
  dictionary : SynonymDictionary
  tokenizer : Option (String → Option (List String))
  keep_original : Bool

namespace SynonymGraphBuilder

/-! ## Matching -/

/-- Whether all tokens are of type `ALPHANUM` or `NUM`. -/
def all_alphanum (tokens : List Token) : Bool :=
  tokens.all fun t => t.token_type = some .Alphanum || t.token_type = some .Num

/-- Whether each token starts at the byte where the one before ends. -/
def is_continuous (tokens : List Token) : Bool :=
  (tokens.zip tokens.tail).all fun pair => pair.1.end_offset = pair.2.start_offset

/-- One turn of `try_match_synonym`'s loop, over the tokens of a phrase. -/
def match_phrase (builder : SynonymGraphBuilder) (phrase : List Token) :
    Option (String × ℕ × List String) :=
  let len := phrase.length
  if 1 < len && !all_alphanum phrase && !is_continuous phrase then none
  else
    let token_texts := phrase.map Token.text
    let phrase_with_space := " ".intercalate token_texts
    let phrase_no_space := "".intercalate token_texts
    match builder.dictionary.get_synonyms phrase_with_space with
    | some synonyms => some (phrase_with_space, len, synonyms)
    | none =>
      if 1 < len then
        (builder.dictionary.get_synonyms phrase_no_space).map fun synonyms =>
          (phrase_no_space, len, synonyms)
      else none

/-- The loop, from the longest phrase down. -/
def longest_match (builder : SynonymGraphBuilder) (tokens : List Token) :
    ℕ → Option (String × ℕ × List String)
  | 0 => none
  | len + 1 =>
    match builder.match_phrase (tokens.take (len + 1)) with
    | some found => some found
    | none => builder.longest_match tokens len

/-- `try_match_synonym`. -/
def try_match_synonym (builder : SynonymGraphBuilder) (tokens : List Token) (start : ℕ) :
    Option (String × ℕ × List String) :=
  let max_len := min (tokens.length - start) builder.dictionary.max_phrase_length
  builder.longest_match (tokens.drop start) max_len

/-! ## The graph of a match -/

/-- `split_synonym`. -/
def split_synonym (builder : SynonymGraphBuilder) (synonym : String) : List String :=
  match builder.tokenizer with
  | some tokenize => (tokenize synonym).getD (split_whitespace synonym)
  | none => split_whitespace synonym

/-- The path of a synonym, over a match from `first` to `last`. -/
def synonym_path (first last : Token) (words : List String) : List Token :=
  words.zipIdx.map fun entry =>
    { text := entry.1
      position := first.position + entry.2
      start_offset := first.start_offset
      end_offset := last.end_offset
      token_type := some .Synonym }

/-- `same_words`. -/
def same_words (path kept : List Token) : Bool :=
  kept.length = path.length && (kept.zip path).all fun pair => pair.1.text = pair.2.text

/-- One turn of the loop over the synonyms' paths. -/
def add_path (paths : List (List Token)) (path : List Token) : List (List Token) :=
  if paths.any (same_words path) then paths else paths ++ [path]

/-- The paths of a match, which starts with `first`. -/
def match_paths (builder : SynonymGraphBuilder) (first : Token) (matched : List Token)
    (synonyms : List String) : List (List Token) :=
  let last := matched.getLastD first
  let synonym_paths := ((synonyms.map builder.split_synonym).filter fun words =>
    !words.isEmpty).map (synonym_path first last)
  synonym_paths.foldl add_path
    (if builder.keep_original || synonym_paths.isEmpty then [matched] else [])

/-- Each path with its first inner node, from `next_node` on. -/
def number_paths (next_node : ℕ) : List (List Token) → List (List Token × ℕ)
  | [] => []
  | path :: paths => (path, next_node) :: number_paths (next_node + (path.length - 1)) paths

/-- One past the last inner node. -/
def end_node (next_node : ℕ) (paths : List (List Token)) : ℕ :=
  paths.foldl (fun next_node path => next_node + (path.length - 1)) next_node

/-- The first words of paths; the first of them has `increment`. -/
def first_words (end_node increment : ℕ) : List (List Token × ℕ) → List Token
  | [] => []
  | (path, first_inner) :: entries =>
    (path.head?.toList.map fun token =>
      { token with
        position_increment := increment
        position_length := if path.length = 1 then end_node else first_inner }) ++
      first_words end_node 0 entries

/-- The other words of a path. -/
def inner_words (end_node : ℕ) (entry : List Token × ℕ) : List Token :=
  (entry.1.zipIdx.drop 1).map fun word =>
    let node := entry.2 + word.2 - 1
    { word.1 with
      position_increment := 1
      position_length := if word.2 + 1 = entry.1.length then end_node - node else 1 }

/-- The tokens of paths. -/
def graph_of_paths (increment : ℕ) (paths : List (List Token)) : List Token :=
  let entries := number_paths 1 paths
  let end_node := end_node 1 paths
  first_words end_node increment entries ++ entries.flatMap (inner_words end_node)

/-- `build_graph_tokens`. -/
def build_graph_tokens (builder : SynonymGraphBuilder) (original_tokens : List Token)
    (match_start match_length : ℕ) (synonyms : List String) : Option (List Token) :=
  if original_tokens.length < match_start + match_length then none
  else
    let matched := (original_tokens.drop match_start).take match_length
    matched.head?.map fun first =>
      graph_of_paths first.position_increment (builder.match_paths first matched synonyms)

/-! ## The filter -/

/-- The loop of `SynonymGraphFilter::filter` from token `i` on, in no more turns than
`fuel`. -/
def filter_from (builder : SynonymGraphBuilder) (input_tokens : List Token) :
    ℕ → ℕ → Option (List Token)
  | 0, _ => none
  | fuel + 1, i =>
    match input_tokens[i]? with
    | none => some []
    | some token =>
      match builder.try_match_synonym input_tokens i with
      | some (_, match_length, synonyms) => do
        let graph_tokens ← builder.build_graph_tokens input_tokens i match_length synonyms
        let output_tokens ← builder.filter_from input_tokens fuel (i + match_length)
        return graph_tokens ++ output_tokens
      | none => do
        let output_tokens ← builder.filter_from input_tokens fuel (i + 1)
        return token :: output_tokens

/-- `SynonymGraphFilter::filter`. -/
def filter (builder : SynonymGraphBuilder) (input_tokens : List Token) : Option (List Token) :=
  builder.filter_from input_tokens (input_tokens.length + 1) 0

end SynonymGraphBuilder

end Laurus
