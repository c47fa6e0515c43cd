import Laurus.Analysis.Helpers.WordArcs
import Laurus.Analysis.Model.SynonymGraph
import Laurus.Common.Bundle
import Mathlib.Data.List.Chain

/-!
# Matches, from left to right, the longest first

A stream is cut into matches and tokens that start none (`Cut`), in one way
(`Cut.unique`), and what the filter emits is what it emits for each of them
(`filter_eq`). The paths of a match have the words of its alternatives, none twice
(`mem_texts_match_paths`, `nodup_texts_match_paths`).
-/

namespace Laurus

/-!
## The graph of one match

The paths of a match are numbered as chains side by side between the node where it
starts and one shared end node (`arcs_from_graph_of_paths`), so they are a bundle
whose words are theirs (`bundle_graph_of_paths`).
-/

namespace SynonymGraphBuilder

open ArcPath

variable {paths : List (List Token)} {path words : List Token} {s stop_node node f inc : ℕ}
  {previous : Option ℕ}

/-! ## The words after the first -/

/-- Words from an inner node on, the last of which reaches the end node. -/
def chain_words (end_node : ℕ) : ℕ → List Token → List Token
  | _, [] => []
  | node, word :: words =>
    { word with
      position_increment := 1
      position_length := if words.isEmpty then end_node - node else 1 } ::
      chain_words end_node (node + 1) words

theorem map_zipIdx_eq_chain_words (first_inner k length : ℕ) (words : List Token)
    (hk : 1 ≤ k) (hlength : length = k + words.length) :
    ((words.zipIdx k).map fun word : Token × ℕ =>
      let node := first_inner + word.2 - 1
      { word.1 with
        position_increment := 1
        position_length := if word.2 + 1 = length then stop_node - node else 1 }) =
      chain_words stop_node (first_inner + k - 1) words := by
  induction words generalizing k with
  | nil => rfl
  | cons word words ih =>
      grind [List.isEmpty_iff_length_eq_zero, chain_words]

theorem inner_words_cons (first : Token) (words : List Token) :
    inner_words stop_node (first :: words, f) = chain_words stop_node f words := by
  rw [inner_words, List.zipIdx_cons, List.drop_succ_cons, List.drop_zero,
    map_zipIdx_eq_chain_words f 1 _ words (Nat.le_refl 1)]
  · rfl
  · rw [List.length_cons, Nat.add_comm]

theorem length_chain_words (words : List Token) :
    (chain_words stop_node node words).length = words.length := by
  induction words generalizing node with
  | nil => rfl
  | cons word words ih => rw [chain_words, List.length_cons, ih, List.length_cons]

theorem map_text_chain_words (words : List Token) :
    (chain_words stop_node node words).map Token.text = words.map Token.text := by
  induction words generalizing node with
  | nil => rfl
  | cons word words ih => rw [chain_words, List.map_cons, ih, List.map_cons]

theorem increments_chain_words (words : List Token) :
    ∀ token ∈ chain_words stop_node node words, token.position_increment ≠ 0 := by
  induction words generalizing node with
  | nil => exact fun token h => absurd h List.not_mem_nil
  | cons word words ih => exact List.forall_mem_cons.2 ⟨Nat.one_ne_zero, ih⟩

theorem isPath_chain_words {q : ℕ} (hne : words ≠ []) (hstop : node + words.length ≤ stop_node)
    (hq : q + 1 = s + node) :
    IsPath WordArc.source WordArc.target (s + node)
      (arcs_from (some q) (chain_words stop_node node words)) (s + stop_node) := by
  induction words generalizing node q with
  | nil => exact absurd rfl hne
  | cons word words ih =>
      rw [List.length_cons] at hstop
      rw [chain_words, arcs_from]
      rw [node_after_of_ne Nat.one_ne_zero, hq]
      refine ⟨rfl, ?_⟩
      rcases words with _ | ⟨word', words⟩
      · have hlength : max (stop_node - node) 1 = stop_node - node := by omega
        have htarget : s + node + (stop_node - node) = s + stop_node := by omega
        exact (congrArg (s + node + ·) hlength).trans htarget
      · exact ih (List.cons_ne_nil _ _) (by omega) (by omega)

/-! ## Chains -/

/-- The first word of a path, as `first_words` has it. -/
def first_word (end_node increment first_inner : ℕ) (path : List Token) : List Token :=
  path.head?.toList.map fun token =>
    { token with
      position_increment := increment
      position_length := if path.length = 1 then end_node else first_inner }

/-- The paths of a match as chains of arcs from `s` on. -/
def chains_from (s end_node : ℕ) : ℕ → ℕ → List (List Token) → List (List WordArc)
  | _, _, [] => []
  | increment, first_inner, path :: paths =>
    (((first_word end_node increment first_inner path).map fun token =>
        (token, s, s + token.position_length)) ++
      arcs_from (some (s + first_inner - 1)) (inner_words end_node (path, first_inner))) ::
      chains_from s end_node 0 (first_inner + (path.length - 1)) paths

theorem le_end_node (f : ℕ) (paths : List (List Token)) : f ≤ end_node f paths := by
  induction paths generalizing f with
  | nil => exact le_refl f
  | cons path paths ih => exact (Nat.le_add_right _ _).trans (ih _)

theorem end_node_cons (f : ℕ) (path : List Token) (paths : List (List Token)) :
    end_node f (path :: paths) = end_node (f + (path.length - 1)) paths := rfl

theorem chains_from_cons (first : Token) (words : List Token) (paths : List (List Token)) :
    chains_from s stop_node inc f ((first :: words) :: paths) =
      (({ first with
          position_increment := inc
          position_length := if words.length + 1 = 1 then stop_node else f }, s,
          s + if words.length + 1 = 1 then stop_node else f) ::
        arcs_from (some (s + f - 1)) (chain_words stop_node f words)) ::
      chains_from s stop_node 0 (f + words.length) paths := by
  rw [chains_from, inner_words_cons]
  rfl

theorem map_text_chains_from (hne : ∀ path ∈ paths, path ≠ []) :
    (chains_from s stop_node inc f paths).map (List.map WordArc.text) =
      paths.map (List.map Token.text) := by
  induction paths generalizing inc f with
  | nil => rfl
  | cons path paths ih =>
      rw [List.forall_mem_cons] at hne
      rcases path with _ | ⟨first, words⟩
      · exact absurd rfl hne.1
      · rw [chains_from_cons, List.map_cons, List.map_cons, map_text_arcs_from,
          map_text_chain_words, ih hne.2]
        rfl

theorem isPath_chains_from (hne : ∀ path ∈ paths, path ≠ []) (hf : 1 ≤ f)
    (hstop : end_node f paths ≤ stop_node) :
    ∀ chain ∈ chains_from s stop_node inc f paths,
      IsPath WordArc.source WordArc.target s chain (s + stop_node) := by
  induction paths generalizing inc f with
  | nil => exact fun chain h => absurd h List.not_mem_nil
  | cons path paths ih =>
      rw [List.forall_mem_cons] at hne
      rcases path with _ | ⟨first, words⟩
      · exact absurd rfl hne.1
      · rw [end_node_cons, List.length_cons, Nat.add_sub_cancel] at hstop
        rw [chains_from_cons]
        refine List.forall_mem_cons.2 ⟨⟨rfl, ?_⟩, ih hne.2 (by omega) hstop⟩
        have hle := (le_end_node (f + words.length) paths).trans hstop
        rcases words with _ | ⟨word, words⟩
        · exact congrArg (s + ·) (if_pos rfl)
        · have htarget : s + (if (word :: words).length + 1 = 1 then stop_node else f) = s + f :=
            congrArg (s + ·) (if_neg (by rw [List.length_cons]; omega))
          exact isPath_chain_words (List.cons_ne_nil _ _) hle (by omega)

theorem forward_chains_from (hne : ∀ path ∈ paths, path ≠ []) (hf : 1 ≤ f)
    (hstop : end_node f paths ≤ stop_node) :
    ∀ chain ∈ chains_from s stop_node inc f paths,
      Forward WordArc.source WordArc.target chain := by
  induction paths generalizing inc f with
  | nil => exact fun chain h => absurd h List.not_mem_nil
  | cons path paths ih =>
      rw [List.forall_mem_cons] at hne
      rcases path with _ | ⟨first, words⟩
      · exact absurd rfl hne.1
      · rw [end_node_cons, List.length_cons, Nat.add_sub_cancel] at hstop
        rw [chains_from_cons]
        have hle := (le_end_node (f + words.length) paths).trans hstop
        refine List.forall_mem_cons.2 ⟨?_, ih hne.2 (by omega) hstop⟩
        refine List.forall_mem_cons.2 ⟨?_, forward_arcs_from _ _⟩
        refine Nat.lt_add_of_pos_right ?_
        split
        · omega
        · omega

/-! ## The tokens of a graph -/

theorem arcs_from_first_words (hne : ∀ path ∈ paths, path ≠ []) (hf : 1 ≤ f)
    (hstop : 1 ≤ stop_node)
    (hstart : ∀ token : Token, token.position_increment = inc → node_after previous token = s) :
    arcs_from previous (first_words stop_node inc (number_paths f paths)) =
      (chains_from s stop_node inc f paths).filterMap List.head? := by
  induction paths generalizing previous inc f with
  | nil => rfl
  | cons path paths ih =>
      rw [List.forall_mem_cons] at hne
      rcases path with _ | ⟨first, words⟩
      · exact absurd rfl hne.1
      · have hrest := @ih (f + words.length) 0 (some s) hne.2 (by omega)
          fun token htoken => if_pos htoken
        have hlength : 1 ≤ if words.length + 1 = 1 then stop_node else f := by grind
        rw [chains_from_cons, List.filterMap_cons, List.head?_cons, ← hrest]
        exact arcs_from_cons (hstart _ rfl) hlength

theorem stops_at_first_words (hne : ∀ path ∈ paths, path ≠ []) (hsome : paths ≠ [])
    (hstart : ∀ token : Token, token.position_increment = inc → node_after previous token = s) :
    stops_at previous (first_words stop_node inc (number_paths f paths)) = some s := by
  induction paths generalizing previous inc f with
  | nil => exact absurd rfl hsome
  | cons path paths ih =>
      rw [List.forall_mem_cons] at hne
      rcases path with _ | ⟨first, words⟩
      · exact absurd rfl hne.1
      · have hnode := hstart { first with
          position_increment := inc
          position_length := if words.length + 1 = 1 then stop_node else f } rfl
        have hstep : stops_at previous
            (first_words stop_node inc (number_paths f ((first :: words) :: paths))) =
            stops_at (some s) (first_words stop_node 0 (number_paths (f + words.length) paths)) := by
          rw [← hnode]
          rfl
        rw [hstep]
        rcases paths with _ | ⟨path, paths⟩
        · rfl
        · exact ih hne.2 (List.cons_ne_nil _ _) fun token htoken => if_pos htoken

theorem increments_inner_words (hne : ∀ path ∈ paths, path ≠ []) :
    ∀ token ∈ (number_paths f paths).flatMap (inner_words stop_node),
      token.position_increment ≠ 0 := by
  induction paths generalizing f with
  | nil => exact fun token h => absurd h List.not_mem_nil
  | cons path paths ih =>
      rw [List.forall_mem_cons] at hne
      rcases path with _ | ⟨first, words⟩
      · exact absurd rfl hne.1
      · rw [number_paths, List.flatMap_cons, inner_words_cons]
        exact List.forall_mem_append.2 ⟨increments_chain_words words, ih hne.2⟩

theorem length_inner_words (hne : ∀ path ∈ paths, path ≠ []) :
    f + ((number_paths f paths).flatMap (inner_words stop_node)).length = end_node f paths := by
  induction paths generalizing f with
  | nil => rfl
  | cons path paths ih =>
      rw [List.forall_mem_cons] at hne
      rcases path with _ | ⟨first, words⟩
      · exact absurd rfl hne.1
      · rw [end_node_cons, number_paths, List.flatMap_cons, inner_words_cons, List.length_append,
          length_chain_words, List.length_cons, Nat.add_sub_cancel, ← ih hne.2, Nat.add_assoc]

theorem arcs_from_inner_words (hne : ∀ path ∈ paths, path ≠ []) (hf : 1 ≤ f) :
    arcs_from (some (s + f - 1)) ((number_paths f paths).flatMap (inner_words stop_node)) =
      (chains_from s stop_node inc f paths).flatMap List.tail := by
  induction paths generalizing inc f with
  | nil => rfl
  | cons path paths ih =>
      rw [List.forall_mem_cons] at hne
      rcases path with _ | ⟨first, words⟩
      · exact absurd rfl hne.1
      · have hstops : stops_at (some (s + f - 1)) (chain_words stop_node f words) =
            some (s + (f + words.length) - 1) := by
          rw [stops_at_of_increments (increments_chain_words words), length_chain_words]
          congr 1
          omega
        rw [chains_from_cons, List.flatMap_cons, List.tail_cons, number_paths, List.flatMap_cons,
          inner_words_cons, arcs_from_append, hstops, List.length_cons, Nat.add_sub_cancel,
          @ih (f + words.length) 0 hne.2 (by omega)]

/-- **The arcs of a match are its paths side by side.** -/
theorem arcs_from_graph_of_paths (hne : ∀ path ∈ paths, path ≠ []) (hsome : paths ≠ [])
    (hstart : ∀ token : Token, token.position_increment = inc → node_after previous token = s) :
    arcs_from previous (graph_of_paths inc paths) =
      side_by_side (chains_from s (end_node 1 paths) inc 1 paths) := by
  have hinner := @arcs_from_inner_words paths s (end_node 1 paths) 1 inc hne (Nat.le_refl 1)
  rw [graph_of_paths, arcs_from_append, stops_at_first_words hne hsome hstart,
    arcs_from_first_words hne (Nat.le_refl 1) (le_end_node 1 paths) hstart, side_by_side, ← hinner]
  rfl

theorem stops_at_graph_of_paths (hne : ∀ path ∈ paths, path ≠ []) (hsome : paths ≠ [])
    (hstart : ∀ token : Token, token.position_increment = inc → node_after previous token = s) :
    stops_at previous (graph_of_paths inc paths) = some (s + end_node 1 paths - 1) := by
  have hlength := @length_inner_words paths (end_node 1 paths) 1 hne
  rw [graph_of_paths, stops_at_append, stops_at_first_words hne hsome hstart,
    stops_at_of_increments (increments_inner_words hne)]
  congr 1
  omega

/-- **The paths of a match are a bundle.** -/
theorem bundle_graph_of_paths (hne : ∀ path ∈ paths, path ≠ []) (hsome : paths ≠ [])
    (hwords : (paths.map (List.map Token.text)).Nodup)
    (hstart : ∀ token : Token, token.position_increment = inc → node_after previous token = s) :
    Bundle WordArc.source WordArc.target WordArc.text (arcs_from previous (graph_of_paths inc paths))
      s (s + end_node 1 paths) {w | w ∈ paths.map (List.map Token.text)} := by
  have htexts := @map_text_chains_from paths s (end_node 1 paths) 1 inc hne
  have hsources : ((chains_from s (end_node 1 paths) inc 1 paths).flatMap List.tail).map
      WordArc.source = List.range' (s + 1)
        ((number_paths 1 paths).flatMap (inner_words (end_node 1 paths))).length := by
    rw [← arcs_from_inner_words hne (Nat.le_refl 1)]
    exact map_source_arcs_from (increments_inner_words hne)
  have hle := le_end_node 1 paths
  rw [arcs_from_graph_of_paths hne hsome hstart, ← htexts]
  refine bundle_of_chains (by omega) (isPath_chains_from hne (Nat.le_refl 1) (le_refl _))
    (forward_chains_from hne (Nat.le_refl 1) (le_refl _)) (fun c hc b hb => ?_) ?_ ?_ ?_
  · have hmem : WordArc.source b ∈ List.range' (s + 1) _ :=
      hsources ▸ List.mem_map_of_mem (List.mem_flatMap.2 ⟨c, hc, hb⟩)
    exact (List.mem_range'_1.1 hmem).1
  · grind
  · intro hnil
    rw [hnil] at htexts
    exact hsome (List.map_eq_nil_iff.1 htexts.symm)
  · rw [htexts]
    exact hwords

end SynonymGraphBuilder

namespace SynonymGraphBuilder

/-- Tokens that may be one term: all words and numbers, or no byte between them. -/
def Together (phrase : List Token) : Prop :=
  phrase.length ≤ 1 ∨
    (∀ t ∈ phrase, t.token_type = some .Alphanum ∨ t.token_type = some .Num) ∨
    phrase.IsChain fun a b => a.end_offset = b.start_offset

/-- The synonyms of a phrase: of its texts with spaces between them or, where that
is no term, of more than one without. -/
def HasSynonyms (builder : SynonymGraphBuilder) (phrase : List Token)
    (synonyms : List String) : Prop :=
  builder.dictionary.get_synonyms (" ".intercalate (phrase.map Token.text)) = some synonyms ∨
    1 < phrase.length ∧
      builder.dictionary.get_synonyms (" ".intercalate (phrase.map Token.text)) = none ∧
      builder.dictionary.get_synonyms ("".intercalate (phrase.map Token.text)) = some synonyms

/-- The first `len` tokens are a term of the dictionary, no longer than its longest. -/
structure Matches (builder : SynonymGraphBuilder) (tokens : List Token) (len : ℕ)
    (synonyms : List String) : Prop where
  pos : 1 ≤ len
  le_length : len ≤ tokens.length
  le_max : len ≤ builder.dictionary.max_phrase_length
  together : Together (tokens.take len)
  has_synonyms : builder.HasSynonyms (tokens.take len) synonyms

/-- What a stream is cut into. -/
inductive Stretch
  | matched (tokens : List Token) (synonyms : List String)
  | unmatched (token : Token)

/-- A stream is cut from left to right, each time at its longest match. -/
inductive Cut (builder : SynonymGraphBuilder) : List Token → List Stretch → Prop
  | nil : Cut builder [] []
  | matched {tokens : List Token} {len : ℕ} {synonyms : List String} {rest : List Stretch} :
      builder.Matches tokens len synonyms →
      (∀ longer synonyms', builder.Matches tokens longer synonyms' → longer ≤ len) →
      Cut builder (tokens.drop len) rest →
      Cut builder tokens (.matched (tokens.take len) synonyms :: rest)
  | unmatched {token : Token} {tokens : List Token} {rest : List Stretch} :
      (∀ len synonyms, ¬ builder.Matches (token :: tokens) len synonyms) →
      Cut builder tokens rest → Cut builder (token :: tokens) (.unmatched token :: rest)

/-- The alternatives of a stretch: the words as they are, where they are kept or no
synonym has any, and those of each synonym that has some. -/
def alternatives (builder : SynonymGraphBuilder) : Stretch → List (List String)
  | .matched tokens synonyms =>
    let synonym_words := (synonyms.map builder.split_synonym).filter fun words => !words.isEmpty
    (if builder.keep_original || synonym_words.isEmpty then [tokens.map Token.text] else []) ++
      synonym_words
  | .unmatched token => [[token.text]]

/-- What the filter emits for a stretch. -/
def emit (builder : SynonymGraphBuilder) : Stretch → List Token
  | .matched tokens synonyms =>
    (tokens.head?.map fun first =>
      graph_of_paths first.position_increment (builder.match_paths first tokens synonyms)).getD []
  | .unmatched token => [token]

variable {builder : SynonymGraphBuilder} {phrase tokens : List Token} {synonyms : List String}
  {len : ℕ}

/-! ## Matching -/

theorem is_continuous_iff : is_continuous phrase = true ↔
    phrase.IsChain fun a b => a.end_offset = b.start_offset := by
  induction phrase with
  | nil => exact ⟨fun _ => List.IsChain.nil, fun _ => rfl⟩
  | cons a phrase ih =>
      rcases phrase with _ | ⟨b, phrase⟩
      · exact ⟨fun _ => List.IsChain.singleton a, fun _ => rfl⟩
      · rw [List.isChain_cons_cons, ← ih, is_continuous, List.tail_cons, List.zip_cons_cons,
          List.all_cons, Bool.and_eq_true, decide_eq_true_iff]
        rfl

theorem all_alphanum_iff : all_alphanum phrase = true ↔
    ∀ t ∈ phrase, t.token_type = some .Alphanum ∨ t.token_type = some .Num := by
  rw [all_alphanum, List.all_eq_true]
  simp

theorem together_iff : Together phrase ↔
    ¬ (1 < phrase.length && !all_alphanum phrase && !is_continuous phrase) = true := by
  rw [Together, ← all_alphanum_iff, ← is_continuous_iff, Bool.and_eq_true, Bool.and_eq_true,
    decide_eq_true_iff, Bool.not_eq_true', Bool.not_eq_true']
  grind

theorem HasSynonyms.unique {synonyms' : List String} (h : builder.HasSynonyms phrase synonyms)
    (h' : builder.HasSynonyms phrase synonyms') : synonyms = synonyms' := by
  rcases h with h | ⟨-, hnone, h⟩
  · rcases h' with h' | ⟨-, hnone', -⟩
    · exact Option.some.inj (h.symm.trans h')
    grind
  · rcases h' with h' | ⟨-, -, h'⟩
    · grind
    grind

/-- **What a phrase is matched with.** -/
theorem match_phrase_spec (builder : SynonymGraphBuilder) (phrase : List Token) :
    (∀ found, builder.match_phrase phrase = some found → found.2.1 = phrase.length ∧
      Together phrase ∧ builder.HasSynonyms phrase found.2.2) ∧
    (builder.match_phrase phrase = none → Together phrase →
      ∀ synonyms, ¬ builder.HasSynonyms phrase synonyms) := by
  rw [match_phrase]
  split
  · rename_i happart
    exact ⟨fun found h => absurd h.symm (Option.some_ne_none _),
      fun _ htogether => absurd happart (together_iff.1 htogether)⟩
  · rename_i htogether
    rw [← together_iff] at htogether
    rcases hspace : builder.dictionary.get_synonyms
        (" ".intercalate (phrase.map Token.text)) with _ | found
    · by_cases hlong : 1 < phrase.length
      · rcases hjoined : builder.dictionary.get_synonyms
            ("".intercalate (phrase.map Token.text)) with _ | found
        · simp only [hspace, hlong, hjoined, if_true, Option.map_none]
          refine ⟨fun found h => absurd h.symm (Option.some_ne_none _), fun _ _ synonyms h => ?_⟩
          rcases h with h | ⟨-, -, h⟩
          · grind
          grind
        · simp only [hspace, hlong, hjoined, if_true, Option.map_some]
          refine ⟨fun found' h => ?_, fun h => absurd h (Option.some_ne_none _)⟩
          obtain rfl := Option.some.inj h
          exact ⟨rfl, htogether, Or.inr ⟨hlong, hspace, hjoined⟩⟩
      · simp only [hspace, hlong, if_false]
        refine ⟨fun found h => absurd h.symm (Option.some_ne_none _), fun _ _ synonyms h => ?_⟩
        rcases h with h | ⟨hlong', -⟩
        · grind
        · exact hlong hlong'
    · simp only [hspace]
      refine ⟨fun found' h => ?_, fun h => absurd h (Option.some_ne_none _)⟩
      obtain rfl := Option.some.inj h
      exact ⟨rfl, htogether, Or.inl hspace⟩

theorem longest_match_spec (hlen : len ≤ tokens.length) :
    (∀ found, builder.longest_match tokens len = some found →
      (1 ≤ found.2.1 ∧ found.2.1 ≤ len ∧ Together (tokens.take found.2.1) ∧
        builder.HasSynonyms (tokens.take found.2.1) found.2.2) ∧
      ∀ longer, longer ≤ len → Together (tokens.take longer) →
        ∀ synonyms, builder.HasSynonyms (tokens.take longer) synonyms → longer ≤ found.2.1) ∧
    (builder.longest_match tokens len = none → ∀ longer, 1 ≤ longer → longer ≤ len →
      Together (tokens.take longer) →
        ∀ synonyms, ¬ builder.HasSynonyms (tokens.take longer) synonyms) := by
  induction len with
  | zero =>
      refine ⟨fun found h => absurd h.symm (Option.some_ne_none _), fun _ longer hpos hle => ?_⟩
      omega
  | succ len ih =>
      obtain ⟨hsome, hnone⟩ := match_phrase_spec builder (tokens.take (len + 1))
      rcases hphrase : builder.match_phrase (tokens.take (len + 1)) with _ | found
      · obtain ⟨ihsome, ihnone⟩ := ih (by omega)
        simp only [longest_match, hphrase]
        grind [Nat.le_succ_iff]
      · simp only [longest_match, hphrase]
        grind

/-- **The filter finds the longest match.** -/
theorem try_match_synonym_some {start : ℕ} {found : String × ℕ × List String}
    (h : builder.try_match_synonym tokens start = some found) :
    builder.Matches (tokens.drop start) found.2.1 found.2.2 ∧
      ∀ longer synonyms, builder.Matches (tokens.drop start) longer synonyms →
        longer ≤ found.2.1 := by
  have hlen : min (tokens.length - start) builder.dictionary.max_phrase_length ≤
      (tokens.drop start).length := by simp
  obtain ⟨⟨hpos, hle, htogether, hsynonyms⟩, hlongest⟩ := (longest_match_spec hlen).1 found h
  refine ⟨⟨hpos, hle.trans hlen, hle.trans (Nat.min_le_right _ _), htogether, hsynonyms⟩,
    fun longer synonyms hlonger => ?_⟩
  refine hlongest longer ?_ hlonger.together synonyms hlonger.has_synonyms
  rw [Nat.le_min, ← List.length_drop]
  exact ⟨hlonger.le_length, hlonger.le_max⟩

theorem try_match_synonym_none {start : ℕ} (h : builder.try_match_synonym tokens start = none)
    (len : ℕ) (synonyms : List String) : ¬ builder.Matches (tokens.drop start) len synonyms := by
  intro hmatch
  have hlen : min (tokens.length - start) builder.dictionary.max_phrase_length ≤
      (tokens.drop start).length := by simp
  refine (longest_match_spec hlen).2 h len hmatch.pos ?_ hmatch.together synonyms
    hmatch.has_synonyms
  rw [Nat.le_min, ← List.length_drop]
  exact ⟨hmatch.le_length, hmatch.le_max⟩

/-- **A stream is cut in one way.** -/
theorem Cut.unique {stretches stretches' : List Stretch} (h : Cut builder tokens stretches)
    (h' : Cut builder tokens stretches') : stretches = stretches' := by
  induction h generalizing stretches' with
  | nil =>
      rcases h' with _ | ⟨hmatch⟩
      · rfl
      · have hpos := hmatch.pos
        have hle := hmatch.le_length
        grind
  | matched hmatch hlongest _ ih =>
      rcases h' with _ | ⟨hmatch', hlongest', hrest'⟩ | ⟨hnone, _⟩
      · have hpos := hmatch.pos
        have hle := hmatch.le_length
        grind
      · obtain rfl := Nat.le_antisymm (hlongest' _ _ hmatch) (hlongest _ _ hmatch')
        rw [hmatch.has_synonyms.unique hmatch'.has_synonyms, ih hrest']
      · exact absurd hmatch (hnone _ _)
  | unmatched hnone _ ih =>
      rcases h' with _ | ⟨hmatch'⟩ | ⟨-, hrest'⟩
      · exact absurd hmatch' (hnone _ _)
      · rw [ih hrest']

/-! ## The filter -/

theorem build_graph_tokens_eq {i : ℕ} (hpos : 1 ≤ len) (hlen : len ≤ (tokens.drop i).length) :
    builder.build_graph_tokens tokens i len synonyms =
      some (builder.emit (.matched ((tokens.drop i).take len) synonyms)) := by
  rw [List.length_drop] at hlen
  rw [build_graph_tokens, if_neg (by omega), emit]
  rcases htake : (tokens.drop i).take len with _ | ⟨first, matched⟩
  · have hlength := congrArg List.length htake
    grind
  · rfl

theorem filter_from_eq (input : List Token) (fuel i : ℕ) (hfuel : input.length - i < fuel) :
    ∃ stretches, Cut builder (input.drop i) stretches ∧
      builder.filter_from input fuel i = some (stretches.flatMap builder.emit) := by
  induction fuel generalizing i with
  | zero => omega
  | succ fuel ih =>
      rcases htoken : input[i]? with _ | token
      · have hle := List.getElem?_eq_none_iff.1 htoken
        rw [List.drop_eq_nil_of_le hle]
        refine ⟨[], .nil, ?_⟩
        simp only [filter_from, htoken]
        rfl
      · obtain ⟨hlt, htoken'⟩ := List.getElem?_eq_some_iff.1 htoken
        rcases hmatch : builder.try_match_synonym input i with _ | ⟨phrase, len, synonyms⟩
        · obtain ⟨rest, hrest, heq⟩ := ih (i + 1) (by omega)
          have hnone := try_match_synonym_none hmatch
          rw [List.drop_eq_getElem_cons hlt, htoken'] at hnone ⊢
          refine ⟨.unmatched token :: rest, .unmatched hnone hrest, ?_⟩
          simp only [filter_from, htoken, hmatch, heq]
          rfl
        · obtain ⟨hfound, hlongest⟩ := try_match_synonym_some hmatch
          have hpos : 1 ≤ len := hfound.pos
          obtain ⟨rest, hrest, heq⟩ := ih (i + len) (by omega)
          rw [← List.drop_drop] at hrest
          refine ⟨_, .matched hfound hlongest hrest, ?_⟩
          grind [build_graph_tokens_eq, Matches.le_length, filter_from]

/-- **What the filter emits**, stretch by stretch. -/
theorem filter_eq (builder : SynonymGraphBuilder) (tokens : List Token) :
    ∃ stretches, Cut builder tokens stretches ∧
      builder.filter tokens = some (stretches.flatMap builder.emit) :=
  filter_from_eq tokens _ 0 (Nat.lt_succ_self _)

/-! ## The paths of a match -/

theorem same_words_iff {path kept : List Token} :
    same_words path kept = true ↔ kept.map Token.text = path.map Token.text := by
  rw [same_words, Bool.and_eq_true, decide_eq_true_iff]
  induction kept generalizing path with
  | nil =>
      rcases path with _ | ⟨b, path⟩
      · simp
      simp
  | cons a kept ih =>
      rcases path with _ | ⟨b, path⟩
      · simp
      grind

theorem map_text_add_path (paths : List (List Token)) (path : List Token) :
    (add_path paths path).map (List.map Token.text) =
      if path.map Token.text ∈ paths.map (List.map Token.text) then
        paths.map (List.map Token.text)
      else paths.map (List.map Token.text) ++ [path.map Token.text] := by
  have hiff : paths.any (same_words path) = true ↔
      path.map Token.text ∈ paths.map (List.map Token.text) := by
    rw [List.any_eq_true, List.mem_map]
    exact exists_congr fun kept => and_congr_right fun _ => same_words_iff
  rw [add_path]
  grind

theorem nodup_texts_foldl (added paths : List (List Token))
    (h : (paths.map (List.map Token.text)).Nodup) :
    ((added.foldl add_path paths).map (List.map Token.text)).Nodup := by
  induction added generalizing paths with
  | nil => exact h
  | cons path added ih =>
      refine ih _ ?_
      rw [map_text_add_path]
      grind

theorem mem_texts_foldl (added paths : List (List Token)) (words : List String) :
    words ∈ (added.foldl add_path paths).map (List.map Token.text) ↔
      words ∈ paths.map (List.map Token.text) ∨ words ∈ added.map (List.map Token.text) := by
  induction added generalizing paths with
  | nil => simp
  | cons path added ih =>
      rw [List.foldl_cons, ih, map_text_add_path, List.map_cons, List.mem_cons]
      grind

theorem map_text_synonym_path (first last : Token) (words : List String) :
    (synonym_path first last words).map Token.text = words := by
  rw [synonym_path, List.map_map]
  exact List.zipIdx_map_fst 0 words

variable {first : Token} {matched : List Token}

/-- **The paths of a match spell its alternatives.** -/
theorem mem_texts_match_paths (words : List String) :
    words ∈ (builder.match_paths first matched synonyms).map (List.map Token.text) ↔
      words ∈ builder.alternatives (.matched matched synonyms) := by
  have htexts : ∀ added : List (List String), (added.map (synonym_path first
      (matched.getLastD first))).map (List.map Token.text) = added := fun added => by
    rw [List.map_map]
    exact (List.map_congr_left fun words _ => map_text_synonym_path _ _ words).trans
      (List.map_id added)
  rw [match_paths, mem_texts_foldl, htexts, alternatives, List.mem_append]
  rw [List.isEmpty_map]
  split
  · rfl
  · rfl

theorem nodup_texts_match_paths :
    ((builder.match_paths first matched synonyms).map (List.map Token.text)).Nodup := by
  refine nodup_texts_foldl _ _ ?_
  grind

theorem alternatives_ne_nil (builder : SynonymGraphBuilder) (stretch : Stretch) :
    builder.alternatives stretch ≠ [] := by
  rcases stretch with ⟨matched, synonyms⟩ | token
  · rw [alternatives]
    simp
  · exact List.cons_ne_nil _ _

theorem match_paths_ne_nil : builder.match_paths first matched synonyms ≠ [] := by
  intro h
  obtain ⟨words, hwords⟩ := List.exists_mem_of_ne_nil _
    (builder.alternatives_ne_nil (.matched matched synonyms))
  rw [← @mem_texts_match_paths builder synonyms first, h] at hwords
  exact absurd hwords List.not_mem_nil

theorem forall_match_paths_ne_nil (hmatched : matched ≠ []) :
    ∀ path ∈ builder.match_paths first matched synonyms, path ≠ [] := by
  rintro path hpath rfl
  have hmem := (mem_texts_match_paths []).1 (List.mem_map_of_mem hpath)
  rw [alternatives, List.mem_append] at hmem
  rcases hmem with hmem | hmem
  · split at hmem
    · exact hmatched (List.map_eq_nil_iff.1 (List.mem_singleton.1 hmem).symm)
    · exact absurd hmem List.not_mem_nil
  grind

end SynonymGraphBuilder

end Laurus
