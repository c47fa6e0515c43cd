import Laurus.Lexical.GraphPhrase
import Laurus.Lexical.Helpers.AnalyzedTerms
import Laurus.Lexical.Model.QueryParser

/-!
# The clauses of a quoted value

The query of a graph has a clause for the direct arcs and one for the others. The paths of
a graph that has only complete ones are the direct arcs and the paths of the others
(`Complete.path_iff`), so the clauses have the words of the paths (`asks_clauses`), and a
document that fills one matches (`hits_clauses`).
-/

namespace Laurus

open ArcPath

variable {DateTime : Type} {reader : PostingsReader} {field : String} {doc slop : ℕ}
  {boost : UInt32} {arcs path : List PhraseArc} {words : List String}

/-! ## What a query of a quoted value asks for -/

/-- A document matches the query of a quoted value. -/
inductive Hits (reader : PostingsReader) (doc : ℕ) : ParsedQuery DateTime → Prop
  | term {field text : String} {p : TermPosting} {boost : UInt32} :
      p ∈ read_postings reader field text → p.doc_id = doc →
        Hits reader doc (.leaf (.term field text) boost)
  | synonym {field text : String} {terms : List String} {p : TermPosting} {boost : UInt32} :
      text ∈ terms → p ∈ read_postings reader field text → p.doc_id = doc →
        Hits reader doc (.leaf (.synonym field terms) boost)
  | phrase {field : String} {positions : List (List String)} {slop : ℕ} {boost : UInt32} :
      PhraseMatches reader field positions slop doc →
        Hits reader doc (.leaf (.phrase field positions slop) boost)
  | graph_phrase {q : GraphPhraseQuery} {m : PhraseMatch} {boost : UInt32} :
      m ∈ q.find_matches reader → m.doc_id = doc →
        Hits reader doc (.leaf (.graph_phrase q.field q.arcs q.slop) boost)
  | boolean {clauses : List (Occur × ParsedQuery DateTime)} {clause : ParsedQuery DateTime}
      {boost : UInt32} : (.should, clause) ∈ clauses → Hits reader doc clause →
        Hits reader doc (.boolean clauses boost)

/-- The words that the query of a quoted value asks for. -/
inductive AsksFor : ParsedQuery DateTime → List String → Prop
  | term {field text : String} {boost : UInt32} : AsksFor (.leaf (.term field text) boost) [text]
  | synonym {field text : String} {terms : List String} {boost : UInt32} : text ∈ terms →
      AsksFor (.leaf (.synonym field terms) boost) [text]
  | phrase {field : String} {positions : List (List String)} {slop : ℕ} {boost : UInt32}
      {words : List String} : List.Forall₂ (· ∈ ·) words positions →
        AsksFor (.leaf (.phrase field positions slop) boost) words
  | graph_phrase {field : String} {arcs path : List PhraseArc} {slop : ℕ} {boost : UInt32}
      {words : List String} : PathOf PhraseArc.start PhraseArc.stop arcs 0 path (last_node arcs) →
        List.Forall₂ (· ∈ ·) words (path.map PhraseArc.terms) →
          AsksFor (.leaf (.graph_phrase field arcs slop) boost) words
  | boolean {clauses : List (Occur × ParsedQuery DateTime)} {clause : ParsedQuery DateTime}
      {boost : UInt32} {words : List String} : (.should, clause) ∈ clauses →
        AsksFor clause words → AsksFor (.boolean clauses boost) words

/-! ## Clauses -/

namespace LexicalQueryParser

theorem hits_of_clauses {clauses : List (ParsedQuery DateTime)} {clause : ParsedQuery DateTime}
    (hmem : clause ∈ clauses) (h : Hits reader doc clause) :
    Hits reader doc (of_clauses clauses) := by
  rcases clauses with _ | ⟨first, _ | ⟨second, clauses⟩⟩
  · exact absurd hmem List.not_mem_nil
  · rw [List.mem_singleton.1 hmem] at h
    exact h
  · exact .boolean (List.mem_map_of_mem (f := fun clause => (Occur.should, clause)) hmem) h

theorem asks_of_clauses {clauses : List (ParsedQuery DateTime)} :
    AsksFor (of_clauses clauses) words ↔ ∃ clause ∈ clauses, AsksFor clause words := by
  have hboolean : AsksFor (.boolean (clauses.map fun clause => (Occur.should, clause)) NO_BOOST)
      words ↔ ∃ clause ∈ clauses, AsksFor clause words := by
    constructor
    · rintro (_ | _ | _ | _ | ⟨hmem, h⟩)
      grind
    · rintro ⟨clause, hmem, h⟩
      exact .boolean (List.mem_map_of_mem (f := fun clause => (Occur.should, clause)) hmem) h
  rcases clauses with _ | ⟨first, _ | ⟨second, clauses⟩⟩
  · exact hboolean
  · constructor
    · exact fun h => ⟨first, List.mem_singleton_self first, h⟩
    · rintro ⟨clause, hmem, h⟩
      rw [List.mem_singleton.1 hmem] at h
      exact h
  · exact hboolean

theorem hits_one_position {alternatives : List String} {text : String} {p : TermPosting}
    (htext : text ∈ alternatives) (hp : p ∈ read_postings reader field text)
    (hdoc : p.doc_id = doc) :
    Hits reader doc (@one_position_query DateTime field alternatives boost) := by
  rcases alternatives with _ | ⟨first, _ | ⟨second, alternatives⟩⟩
  · exact absurd htext List.not_mem_nil
  · rw [List.mem_singleton.1 htext] at hp
    exact .term hp hdoc
  · exact .synonym (List.mem_eraseDups.2 htext) hp hdoc

theorem asks_one_position {alternatives : List String} :
    AsksFor (@one_position_query DateTime field alternatives boost) words ↔
      ∃ text ∈ alternatives, words = [text] := by
  have hsynonym : AsksFor (.leaf (.synonym field alternatives.eraseDups) boost :
      ParsedQuery DateTime) words ↔ ∃ text ∈ alternatives, words = [text] := by
    constructor
    · rintro (_ | htext)
      exact ⟨_, List.mem_eraseDups.1 htext, rfl⟩
    · rintro ⟨t, ht, rfl⟩
      exact .synonym (List.mem_eraseDups.2 ht)
  rcases alternatives with _ | ⟨text, _ | ⟨second, alternatives⟩⟩
  · exact hsynonym
  · constructor
    · rintro ⟨⟩
      simp
    · rintro ⟨t, ht, rfl⟩
      rw [List.mem_singleton.1 ht]
      exact .term
  · exact hsynonym

/-- The clause of the arcs that are not direct. -/
def arcs_clause (field_name : String) (slop : ℕ) (boost : UInt32) (arcs : List PhraseArc) :
    ParsedQuery DateTime :=
  if (arcs.zip arcs.tail).all fun pair => pair.1.stop = pair.2.start then
    .leaf (.phrase field_name (arcs.map PhraseArc.terms) slop) boost
  else .leaf (.graph_phrase field_name arcs slop) boost

theorem arcs_clause_of_isPath {m n : ℕ} (h : IsPath PhraseArc.start PhraseArc.stop m arcs n) :
    @arcs_clause DateTime field slop boost arcs =
      .leaf (.phrase field (arcs.map PhraseArc.terms) slop) boost :=
  if_pos (List.all_eq_true.2 fun pair hpair => decide_eq_true (linked_of_isPath h pair hpair))

theorem phrase_clauses_graph (direct : List String) :
    @phrase_clauses DateTime field slop boost (.graph direct arcs) =
      (if direct.isEmpty then [] else [one_position_query field direct boost]) ++
        if arcs.isEmpty then [] else [arcs_clause field slop boost arcs] := by
  rw [phrase_clauses, arcs_clause]
  grind

theorem mem_phrase_clauses {direct : List String} {clause : ParsedQuery DateTime} :
    clause ∈ phrase_clauses field slop boost (.graph direct arcs) ↔
      (direct ≠ [] ∧ clause = one_position_query field direct boost) ∨
        (arcs ≠ [] ∧ clause = arcs_clause field slop boost arcs) := by
  rw [phrase_clauses_graph, List.mem_append]
  simp

end LexicalQueryParser

/-! ## Direct arcs and the others -/

theorem le_last_node {arc : PhraseArc} (h : arc ∈ arcs) : arc.stop ≤ last_node arcs := by
  have hmem : arc.stop ∈ arcs.map PhraseArc.stop := List.mem_map_of_mem h
  rcases hmax : (arcs.map PhraseArc.stop).max? with _ | n
  · grind
  · rw [last_node, hmax, Option.getD_some]
    exact (List.max?_eq_some_iff.1 hmax).2 _ hmem

theorem last_node_eq {n : ℕ} (hle : ∀ arc ∈ arcs, arc.stop ≤ n)
    (hsome : ∃ arc ∈ arcs, arc.stop = n) : last_node arcs = n := by
  have hmax : (arcs.map PhraseArc.stop).max? = some n := by
    grind [List.max?_eq_some_iff]
  rw [last_node, hmax, Option.getD_some]

theorem last_node_pos (hforward : Forward PhraseArc.start PhraseArc.stop arcs) (hne : arcs ≠ []) :
    0 ≠ last_node arcs := by
  obtain ⟨arc, harc⟩ := List.exists_mem_of_ne_nil _ hne
  have hlt := hforward arc harc
  have hle := le_last_node harc
  omega

/-- Arcs that are on paths from node 0 to the last. -/
structure Complete (arcs : List PhraseArc) : Prop where
  forward : Forward PhraseArc.start PhraseArc.stop arcs
  sorted : arcs.Pairwise PhraseArc.le
  on_path : ∀ arc ∈ arcs, OnPath arcs 0 (last_node arcs) arc

theorem complete_of_paths (h : Forward PhraseArc.start PhraseArc.stop arcs) (first last : ℕ) :
    Complete (complete_paths arcs first last) := by
  have hkept := pathArcs h first last
  rw [complete_paths_eq h]
  refine ⟨hkept.forward_renumbered, hkept.sorted_renumbered, fun arc harc => ?_⟩
  obtain ⟨b, hb, rfl⟩ := List.mem_map.1 harc
  obtain ⟨-, path, hpath, hin⟩ := (hkept.mem b).1 hb
  exact ⟨_, (hkept.pathOf_renumbered (List.ne_nil_of_mem hb)).2 ⟨path, hpath, rfl⟩,
    List.mem_map_of_mem hin⟩

/-- An arc from the first node to the last. -/
def Direct (arcs : List PhraseArc) (arc : PhraseArc) : Prop :=
  arc.start = 0 ∧ arc.stop = last_node arcs

instance (arcs : List PhraseArc) (arc : PhraseArc) : Decidable (Direct arcs arc) :=
  inferInstanceAs (Decidable (_ ∧ _))

/-- The arcs that are not direct. -/
def rest_arcs (arcs : List PhraseArc) : List PhraseArc := arcs.filter fun arc => ¬Direct arcs arc

theorem mem_rest_arcs {arc : PhraseArc} : arc ∈ rest_arcs arcs ↔ arc ∈ arcs ∧ ¬Direct arcs arc := by
  rw [rest_arcs, List.mem_filter, decide_eq_true_iff]

namespace Complete

theorem forward_rest (h : Complete arcs) :
    Forward PhraseArc.start PhraseArc.stop (rest_arcs arcs) :=
  fun arc harc => h.forward arc (mem_rest_arcs.1 harc).1

theorem path_cases (h : Complete arcs)
    (hpath : PathOf PhraseArc.start PhraseArc.stop arcs 0 path (last_node arcs)) :
    (∃ arc ∈ arcs, Direct arcs arc ∧ path = [arc]) ∨
      PathOf PhraseArc.start PhraseArc.stop (rest_arcs arcs) 0 path (last_node arcs) := by
  by_cases hdirect : ∃ arc ∈ path, Direct arcs arc
  · obtain ⟨arc, hin, hstart, hstop⟩ := hdirect
    obtain ⟨before, after, rfl, hbefore, hafter⟩ := hpath.split hin
    have hbefore_nil : before = [] := by
      rcases before with _ | ⟨b, before⟩
      · rfl
      · have hlt := hbefore.source_lt h.forward List.mem_cons_self
        omega
    have hafter_nil : after = [] := by
      rcases after with _ | ⟨b, after⟩
      · rfl
      · have hlt := hafter.source_lt h.forward List.mem_cons_self
        omega
    subst hbefore_nil hafter_nil
    exact Or.inl ⟨arc, hpath.sub arc hin, ⟨hstart, hstop⟩, rfl⟩
  · exact Or.inr ⟨hpath.isPath, fun arc harc =>
      mem_rest_arcs.2 ⟨hpath.sub arc harc, fun hd => hdirect ⟨arc, harc, hd⟩⟩⟩

theorem exists_path_rest (h : Complete arcs) (hne : rest_arcs arcs ≠ []) :
    ∃ path, path ≠ [] ∧
      PathOf PhraseArc.start PhraseArc.stop (rest_arcs arcs) 0 path (last_node arcs) := by
  obtain ⟨arc, harc⟩ := List.exists_mem_of_ne_nil _ hne
  obtain ⟨harc, hnot⟩ := mem_rest_arcs.1 harc
  obtain ⟨path, hpath, hin⟩ := h.on_path arc harc
  rcases h.path_cases hpath with ⟨b, -, hb, rfl⟩ | hrest
  · grind
  grind

theorem last_rest (h : Complete arcs) (hne : rest_arcs arcs ≠ []) :
    last_node (rest_arcs arcs) = last_node arcs := by
  refine last_node_eq (fun arc harc => le_last_node (mem_rest_arcs.1 harc).1) ?_
  obtain ⟨path, hpath_ne, hpath⟩ := h.exists_path_rest hne
  rcases List.eq_nil_or_concat' path with rfl | ⟨before, arc, rfl⟩
  · exact absurd rfl hpath_ne
  · exact ⟨arc, hpath.sub arc (List.mem_append_right _ (List.mem_singleton_self arc)),
      (isPath_concat.1 hpath.isPath).2⟩

/-- **The complete paths** are the direct arcs and the paths of the others. -/
theorem path_iff (h : Complete arcs) (hne : path ≠ []) :
    PathOf PhraseArc.start PhraseArc.stop arcs 0 path (last_node arcs) ↔
      (∃ arc ∈ arcs, Direct arcs arc ∧ path = [arc]) ∨
        PathOf PhraseArc.start PhraseArc.stop (rest_arcs arcs) 0 path
          (last_node (rest_arcs arcs)) := by
  have hlast : ∀ {m n : ℕ}, PathOf PhraseArc.start PhraseArc.stop (rest_arcs arcs) m path n →
      last_node (rest_arcs arcs) = last_node arcs := fun hrest => by
    obtain ⟨arc, harc⟩ := List.exists_mem_of_ne_nil path hne
    exact h.last_rest (List.ne_nil_of_mem (hrest.sub arc harc))
  constructor
  · intro hpath
    refine (h.path_cases hpath).imp_right fun hrest => ?_
    rw [hlast hrest]
    exact hrest
  · rintro (⟨arc, harc, ⟨hstart, hstop⟩, rfl⟩ | hrest)
    · exact ⟨⟨hstart, hstop⟩, fun b hb => by rwa [List.mem_singleton.1 hb]⟩
    grind [PathOf.mono, mem_rest_arcs]

/-- **Where each arc starts where the one before stops there is one path.** -/
theorem path_of_linked (h : Complete arcs) (hne : rest_arcs arcs ≠ [])
    (hlinked : (((rest_arcs arcs).zip (rest_arcs arcs).tail).all fun pair =>
      pair.1.stop = pair.2.start) = true) :
    PathOf PhraseArc.start PhraseArc.stop (rest_arcs arcs) 0 path (last_node (rest_arcs arcs)) ↔
      path = rest_arcs arcs := by
  obtain ⟨m, n, hchain⟩ := @exists_isPath _ PhraseArc.start PhraseArc.stop _ hne
    fun pair hpair => of_decide_eq_true (List.all_eq_true.1 hlinked pair hpair)
  have hall : PathOf PhraseArc.start PhraseArc.stop (rest_arcs arcs) m (rest_arcs arcs) n :=
    ⟨hchain, fun _ harc => harc⟩
  have hfirst : m = 0 := by
    obtain ⟨p, hp_ne, hp⟩ := h.exists_path_rest hne
    rcases p with _ | ⟨arc, p⟩
    · exact absurd rfl hp_ne
    · have hlow := (hall.source_lt h.forward_rest (hp.sub arc List.mem_cons_self)).1
      have hstart : arc.start = 0 := hp.isPath.1
      omega
  have hlast : last_node (rest_arcs arcs) = n := by
    refine last_node_eq (fun arc harc => ?_) ?_
    · obtain ⟨before, after, -, -, hafter⟩ := hall.split harc
      exact hafter.le h.forward_rest
    · rcases List.eq_nil_or_concat' (rest_arcs arcs) with hnil | ⟨before, arc, heq⟩
      · exact absurd hnil hne
      grind [isPath_concat]
  rw [hlast, ← hfirst]
  exact pathOf_chain h.forward_rest hchain

end Complete

/-! ## The query of a graph -/

section Graph

open LexicalQueryParser

/-- The texts of the direct arcs. -/
def direct_terms (arcs : List PhraseArc) : List String :=
  (arcs.filter fun arc => Direct arcs arc).flatMap PhraseArc.terms

theorem mem_direct_terms {text : String} :
    text ∈ direct_terms arcs ↔ ∃ arc ∈ arcs, Direct arcs arc ∧ text ∈ arc.terms := by
  simp only [direct_terms, List.mem_flatMap, List.mem_filter, decide_eq_true_eq, and_assoc]

theorem asks_arcs_clause (h : Complete arcs) (hne : rest_arcs arcs ≠ []) :
    AsksFor (@arcs_clause DateTime field slop boost (rest_arcs arcs)) words ↔
      ∃ path, PathOf PhraseArc.start PhraseArc.stop (rest_arcs arcs) 0 path
        (last_node (rest_arcs arcs)) ∧
          List.Forall₂ (· ∈ ·) words (GraphPhraseQuery.phrase path) := by
  rw [arcs_clause]
  split_ifs with hlinked
  · simp only [h.path_of_linked hne hlinked, exists_eq_left]
    constructor
    · rintro (_ | _ | hwords)
      exact hwords
    · exact AsksFor.phrase
  · constructor
    · rintro (_ | _ | _ | ⟨hpath, hwords⟩)
      exact ⟨_, hpath, hwords⟩
    · rintro ⟨path, hpath, hwords⟩
      exact .graph_phrase hpath hwords

/-- **the clauses ask for the complete paths.** -/
theorem asks_clauses (h : Complete arcs) (hne : arcs ≠ []) :
    AsksFor (of_clauses (@phrase_clauses DateTime field slop boost
      (.graph (direct_terms arcs) (rest_arcs arcs)))) words ↔
        ∃ path, PathOf PhraseArc.start PhraseArc.stop arcs 0 path (last_node arcs) ∧
          List.Forall₂ (· ∈ ·) words (GraphPhraseQuery.phrase path) := by
  rw [asks_of_clauses]
  constructor
  · rintro ⟨clause, hclause, hasks⟩
    rcases mem_phrase_clauses.1 hclause with ⟨-, rfl⟩ | ⟨hne, rfl⟩
    · obtain ⟨text, htext, rfl⟩ := asks_one_position.1 hasks
      obtain ⟨arc, harc, hdirect, hin⟩ := mem_direct_terms.1 htext
      exact ⟨[arc], (h.path_iff (List.cons_ne_nil arc [])).2 (Or.inl ⟨arc, harc, hdirect, rfl⟩),
        .cons hin .nil⟩
    · obtain ⟨path, hpath, hchoice⟩ := (asks_arcs_clause h hne).1 hasks
      grind [PathOf.ne_nil, last_node_pos, Complete.forward_rest, Complete.path_iff]
  · rintro ⟨path, hpath, hchoice⟩
    have hpath_ne : path ≠ [] := hpath.ne_nil (last_node_pos h.forward hne)
    rcases (h.path_iff hpath_ne).1 hpath with ⟨arc, harc, hdirect, rfl⟩ | hrest
    · obtain ⟨text, _, hin, hnil, rfl⟩ := List.forall₂_cons_right_iff.1 hchoice
      obtain rfl := List.forall₂_nil_right_iff.1 hnil
      have htext : text ∈ direct_terms arcs := mem_direct_terms.2 ⟨arc, harc, hdirect, hin⟩
      exact ⟨_, mem_phrase_clauses.2 (Or.inl ⟨List.ne_nil_of_mem htext, rfl⟩),
        asks_one_position.2 ⟨text, htext, rfl⟩⟩
    · have hne : rest_arcs arcs ≠ [] := by
        obtain ⟨arc, harc⟩ := List.exists_mem_of_ne_nil path hpath_ne
        exact List.ne_nil_of_mem (hrest.sub arc harc)
      exact ⟨_, mem_phrase_clauses.2 (Or.inr ⟨hne, rfl⟩),
        (asks_arcs_clause h hne).2 ⟨path, hrest, hchoice⟩⟩

theorem hits_graph_phrase {q : GraphPhraseQuery} (hphrasal : q.Phrasal) (hpath : q.Path path)
    (hmatches : PhraseMatches reader q.field (GraphPhraseQuery.phrase path) q.slop doc) :
    Hits reader doc (.leaf (.graph_phrase q.field q.arcs q.slop) boost : ParsedQuery DateTime) := by
  obtain ⟨m, hm, hdoc⟩ :=
    ((q.unionOfPaths (Or.inr hphrasal)).documents doc).2 ⟨path, hpath, hmatches⟩
  exact .graph_phrase hm hdoc

theorem hits_arcs_clause (h : Complete arcs) (hpath_ne : path ≠ [])
    (hpath : PathOf PhraseArc.start PhraseArc.stop (rest_arcs arcs) 0 path
      (last_node (rest_arcs arcs)))
    (hfills : Fills reader field doc (GraphPhraseQuery.phrase path) 0) :
    Hits reader doc (@arcs_clause DateTime field 0 boost (rest_arcs arcs)) := by
  have hne : rest_arcs arcs ≠ [] := by
    obtain ⟨arc, harc⟩ := List.exists_mem_of_ne_nil path hpath_ne
    exact List.ne_nil_of_mem (hpath.sub arc harc)
  have hlast := h.last_rest hne
  have hphrasal : ∀ arc ∈ rest_arcs arcs,
      ¬(arc.start = 0 ∧ arc.stop = last_node (rest_arcs arcs)) := by
    intro arc harc
    rw [hlast]
    exact (mem_rest_arcs.1 harc).2
  have hmatches : PhraseMatches reader field (GraphPhraseQuery.phrase path) 0 doc := by
    refine (phrase_zero_iff (Or.inr fun term heq => ?_)).2 ⟨?_, 0, hfills⟩
    · -- a path of one arc is direct
      rcases path with _ | ⟨arc, _ | ⟨b, path⟩⟩
      · exact absurd rfl hpath_ne
      · exact hphrasal arc (hpath.sub arc List.mem_cons_self) hpath.isPath
      · exact absurd (congrArg List.length heq) (by simp [GraphPhraseQuery.phrase])
    · exact fun hnil => hpath_ne (List.map_eq_nil_iff.1 hnil)
  rw [arcs_clause]
  split_ifs with hlinked
  · rw [← (h.path_of_linked hne hlinked).1 hpath]
    exact .phrase hmatches
  · exact @hits_graph_phrase DateTime reader doc boost path ⟨field, rest_arcs arcs, 0,
      h.forward_rest, h.sorted.sublist List.filter_sublist⟩ hphrasal hpath hmatches

/-- **A document that fills a complete path matches.** -/
theorem hits_clauses (h : Complete arcs) (hpath_ne : path ≠ [])
    (hpath : PathOf PhraseArc.start PhraseArc.stop arcs 0 path (last_node arcs))
    (hfills : Fills reader field doc (GraphPhraseQuery.phrase path) 0) :
    Hits reader doc (of_clauses (@phrase_clauses DateTime field 0 boost
      (.graph (direct_terms arcs) (rest_arcs arcs)))) := by
  rcases (h.path_iff hpath_ne).1 hpath with ⟨arc, harc, hdirect, rfl⟩ | hrest
  · obtain ⟨term, hterm, p, hp, hdoc, -⟩ := hfills 0 arc.terms rfl
    have htext : term ∈ direct_terms arcs := mem_direct_terms.2 ⟨arc, harc, hdirect, hterm⟩
    exact hits_of_clauses (mem_phrase_clauses.2 (Or.inl ⟨List.ne_nil_of_mem htext, rfl⟩))
      (hits_one_position htext hp hdoc)
  · have hne : rest_arcs arcs ≠ [] := by
      obtain ⟨arc, harc⟩ := List.exists_mem_of_ne_nil path hpath_ne
      exact List.ne_nil_of_mem (hrest.sub arc harc)
    exact hits_of_clauses (mem_phrase_clauses.2 (Or.inr ⟨hne, rfl⟩))
      (hits_arcs_clause h hpath_ne hrest hfills)

/-- **A document that has a word of each position in turn matches.** -/
theorem hits_flat {positions : List (List String)} (hne : positions ≠ [])
    (hfills : Fills reader field doc positions 0) :
    Hits reader doc (of_clauses (@phrase_clauses DateTime field 0 boost (.flat positions))) := by
  have hphrase : (∀ term, positions ≠ [[term]]) →
      Hits reader doc (.leaf (.phrase field positions 0) boost : ParsedQuery DateTime) :=
    fun hplaces => .phrase ((phrase_zero_iff (Or.inr hplaces)).2 ⟨hne, 0, hfills⟩)
  rcases positions with _ | ⟨alternatives, _ | ⟨second, positions⟩⟩
  · exact absurd rfl hne
  · obtain ⟨term, hterm, p, hp, hdoc, -⟩ := hfills 0 alternatives rfl
    exact hits_one_position hterm hp hdoc
  · exact hphrase fun term heq => absurd (congrArg List.length heq) (by simp)

end Graph

end Laurus
