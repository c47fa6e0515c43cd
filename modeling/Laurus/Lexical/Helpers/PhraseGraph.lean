import Laurus.Analysis.FlatGraph
import Laurus.Analysis.Helpers.WordArcs
import Laurus.Lexical.Helpers.Phrase
import Laurus.Lexical.Model.PhraseGraph

/-!
# The arcs of a phrase and the words of a stream

The flat fallback has the words of each position (`filled_groups`). An arc of a phrase has
the words of a stream that share its ends, so a path of words goes through arcs
(`exists_arc_path`) and a choice of words from a path of arcs is a path of words
(`exists_word_path`).
-/

namespace Laurus

open ArcPath Depth

variable {tokens : List Token} {i n : ℕ} {text : String}

theorem mem_add_alternative {alternatives : List String} (t : String) :
    text ∈ add_alternative alternatives t ↔ text ∈ alternatives ∨ text = t := by
  rw [add_alternative]
  grind

theorem add_alternative_ne_nil (alternatives : List String) (t : String) :
    add_alternative alternatives t ≠ [] :=
  List.ne_nil_of_mem ((mem_add_alternative t).2 (Or.inr rfl))

/-! ## Words at their flat positions -/

theorem exists_token_of_texts {flat : List Token} {positions : List ℕ}
    (h : (text, n) ∈ (flat.map fun token => token.text).zip positions) :
    ∃ token : Token, token.text = text ∧ (token, n) ∈ flat.zip positions := by
  rw [List.zip_map_left] at h
  grind

theorem map_text_renumber (previous : Option ℕ) (entries : List LaidOut) :
    ((renumber_from id previous entries).map fun token => token.text) =
      entries.map fun e => e.token.text := by
  have hwords := congrArg (List.map fun token : Token => token.text)
    (@map_word_renumber previous id entries)
  rw [List.map_map, List.map_map] at hwords
  exact hwords

/-- **A word lies at the depth of its node** in the flat stream. -/
theorem exists_flat_token (h : InOrder (token_arcs tokens)) {a : WordArc}
    (ha : a ∈ word_arcs tokens) : ∃ token : Token, token.text = a.text ∧
      (token, depth (ArcStep (token_arcs tokens)) a.source) ∈
        (flatten_token_graph tokens).zip (token_positions (flatten_token_graph tokens)) := by
  have harc : a.2 ∈ token_arcs tokens := (List.of_mem_zip ha).2
  by_cases hspan : (tokens.all fun token => token.position_length ≤ 1) = true
  · have hflat : flatten_token_graph tokens = tokens := if_pos hspan
    -- every arc spans one position, so nodes are at their depths
    have hone : ∀ b ∈ token_arcs tokens, b.2 = b.1 + 1 := by
      intro b hb
      have hforward := h.forward b hb
      obtain ⟨entry, hentry, rfl⟩ := List.mem_map.1 hb
      have hle := of_decide_eq_true (List.all_eq_true.1 hspan entry.1 (List.of_mem_zip hentry).1)
      rw [u32_saturating_add, Token.span] at hforward ⊢
      omega
    have hdepth : depth (ArcStep (token_arcs tokens)) a.source = a.source :=
      depth_eq_self_of_span h hone ⟨a.2, harc, Or.inl rfl⟩
    rw [hflat, hdepth, ← map_fst_token_arcs, List.zip_map_right]
    exact ⟨a.1, rfl, List.mem_map_of_mem ha⟩
  · have hflat : flatten_token_graph tokens = renumber_from id none (sorted_entries tokens) :=
      if_neg hspan
    have hpositions : token_positions (renumber_from id none (sorted_entries tokens)) =
        (sorted_entries tokens).map fun e => e.start :=
      @positions_renumber none id (sorted_entries tokens) (ranks_id _ _)
        (climbs_sorted_entries h) fun e he => (entry_forward h he).le.trans (entry_max h he)
    rw [hflat, hpositions]
    refine exists_token_of_texts ?_
    rw [map_text_renumber, List.zip_map']
    refine List.mem_map.2 ⟨⟨a.1, depth (ArcStep (token_arcs tokens)) a.2.1,
      depth (ArcStep (token_arcs tokens)) a.2.2⟩, (sorted_perm tokens).mem_iff.2 ?_, rfl⟩
    rw [laid_out_eq h]
    exact List.mem_map_of_mem ha

/-! ## The flat fallback -/

/-- The groups after some tokens: those of the positions so far, each with words of the tokens
there. -/
structure Grouped (entries : List (Token × ℕ)) (state : Option ℕ × List (List String)) : Prop where
  previous : state.1 = entries.getLast?.map Prod.snd
  length : state.2.length = (entries.getLast?.map fun entry => entry.2 + 1).getD 0
  filled : ∀ i g, state.2[i]? = some g → g ≠ [] ∧
    ∀ text ∈ g, ∃ token : Token, token.text = text ∧ (token, i) ∈ entries

theorem Grouped.step {entries : List (Token × ℕ)} {state : Option ℕ × List (List String)}
    (h : Grouped entries state) {entry : Token × ℕ}
    (hclimbs : Climbs none ((entries ++ [entry]).map Prod.snd)) :
    Grouped (entries ++ [entry]) (group_step state entry) := by
  obtain ⟨groups, hgroups⟩ : ∃ groups, groups =
    if state.1 = some entry.2 then state.2 else state.2 ++ [[]] := ⟨_, rfl⟩
  -- the group of the entry's position is there, new where the position is
  have hready : groups.length = entry.2 + 1 ∧ ∀ i g, groups[i]? = some g →
      (i = entry.2 ∨ g ≠ []) ∧ ∀ text ∈ g, ∃ token : Token, token.text = text ∧
        (token, i) ∈ entries := by
    have hnew : state.2.length = entry.2 → groups = state.2 ++ [[]] →
        groups.length = entry.2 + 1 ∧ ∀ i g, groups[i]? = some g →
          (i = entry.2 ∨ g ≠ []) ∧ ∀ text ∈ g, ∃ token : Token, token.text = text ∧
            (token, i) ∈ entries := by
      rintro hlength rfl
      refine ⟨by rw [List.length_append, hlength]; rfl, fun i g hg => ?_⟩
      rcases Nat.lt_or_ge i state.2.length with hi | hi
      · grind [filled]
      grind
    rcases List.eq_nil_or_concat' entries with rfl | ⟨before, b, rfl⟩
    · have hzero : entry.2 = 0 := hclimbs.1
      have hprevious : state.1 = none := h.previous
      rw [hprevious, if_neg (Option.some_ne_none _).symm] at hgroups
      exact hnew (h.length.trans hzero.symm) hgroups
    · have hprevious := h.previous
      have hlength := h.length
      rw [List.getLast?_concat, Option.map_some] at hprevious hlength
      rw [List.map_append, List.map_append, List.append_assoc] at hclimbs
      rcases hclimbs.adjacent with hsame | hnext
      · rw [hprevious, if_pos (congrArg some hsame.symm)] at hgroups
        grind [filled]
      grind
  obtain ⟨hlength, hfilled⟩ := hready
  have hstep : group_step state entry = (some entry.2, groups.modify entry.2 fun alternatives =>
      add_alternative alternatives entry.1.text) := by
    rw [group_step, ← hgroups, hlength, Nat.add_sub_cancel]
  rw [hstep]
  refine ⟨by simp, ?_, fun i g hg => ?_⟩
  · grind
  · rw [List.getElem?_modify] at hg
    obtain ⟨g', hg', heq⟩ := Option.map_eq_some_iff.1 hg
    by_cases hi : entry.2 = i
    · subst hi
      grind [add_alternative_ne_nil, mem_add_alternative]
    grind

theorem grouped_run (entries : List (Token × ℕ)) (hclimbs : Climbs none (entries.map Prod.snd)) :
    Grouped entries (entries.foldl group_step (none, [])) := by
  induction entries using List.reverseRecOn with
  | nil => exact ⟨rfl, rfl, fun i g hg => absurd hg.symm (by simp)⟩
  | append_singleton entries entry ih =>
      rw [List.foldl_concat]
      exact (ih (Climbs.front (by rwa [List.map_append] at hclimbs))).step hclimbs

theorem map_snd_zip_positions (flat : List Token) :
    (flat.zip (token_positions flat)).map Prod.snd = token_positions flat := by
  refine List.map_snd_zip (Nat.le_of_eq ?_)
  rw [token_positions, length_positions_from]

theorem grouped_by_position (tokens : List Token) :
    Grouped ((flatten_token_graph tokens).zip (token_positions (flatten_token_graph tokens)))
      (((flatten_token_graph tokens).zip (token_positions (flatten_token_graph tokens))).foldl
        group_step (none, [])) := by
  refine grouped_run _ ?_
  rw [map_snd_zip_positions]
  exact climbs_token_positions _

/-- **Each group has a word of its position.** -/
theorem filled_groups {g : List String} (h : (group_tokens_by_position tokens)[i]? = some g) :
    ∃ text ∈ g, ∃ token : Token, token.text = text ∧
      (token, i) ∈ (flatten_token_graph tokens).zip
        (token_positions (flatten_token_graph tokens)) := by
  obtain ⟨hne, htexts⟩ := (grouped_by_position tokens).filled i g h
  obtain ⟨text, htext⟩ := List.exists_mem_of_ne_nil g hne
  exact ⟨text, htext, htexts text htext⟩

theorem length_renumber (previous : Option ℕ) (entries : List LaidOut) :
    (renumber_from id previous entries).length = entries.length := by
  have hlength := congrArg List.length (map_text_renumber previous entries)
  grind

theorem flatten_ne_nil (h : InOrder (token_arcs tokens)) (hne : tokens ≠ []) :
    flatten_token_graph tokens ≠ [] := by
  rw [flatten_token_graph]
  split_ifs
  · exact hne
  · intro hnil
    have hlength : (sorted_entries tokens).length = 0 :=
      (length_renumber none _).symm.trans (congrArg List.length hnil)
    rw [(sorted_perm tokens).length_eq, laid_out_eq h, List.length_map, List.length_zip,
      length_token_arcs, Nat.min_self] at hlength
    grind

theorem groups_ne_nil (h : InOrder (token_arcs tokens)) (hne : tokens ≠ []) :
    group_tokens_by_position tokens ≠ [] := by
  intro hnil
  have hlength := (grouped_by_position tokens).length
  obtain ⟨entries, hentries⟩ : ∃ entries, entries =
    (flatten_token_graph tokens).zip (token_positions (flatten_token_graph tokens)) := ⟨_, rfl⟩
  have hzero : ((entries.foldl group_step (none, [])).2).length = 0 := by
    rw [hentries]
    exact congrArg List.length hnil
  rcases List.eq_nil_or_concat' entries with heq | ⟨before, b, heq⟩
  · have hpositions := congrArg List.length (map_snd_zip_positions (flatten_token_graph tokens))
    rw [← hentries, heq, token_positions, length_positions_from] at hpositions
    exact flatten_ne_nil h hne (List.eq_nil_of_length_eq_zero hpositions.symm)
  grind

/-! ## Arcs -/

theorem mem_gathered {texts found : List String} {acc : Option (List String)}
    (h : gather_values (fun acc text => add_alternative (acc.getD []) text) acc texts =
      some found) : text ∈ found ↔ text ∈ acc.getD [] ∨ text ∈ texts := by
  induction texts generalizing acc with
  | nil =>
      have hacc : acc = some found := h
      grind
  | cons t texts ih =>
      have hrest := @ih (some (add_alternative (acc.getD []) t)) h
      rw [hrest, Option.getD_some, mem_add_alternative, List.mem_cons, or_assoc]

theorem mem_arc_alternatives_iff {arc : PhraseArc} : arc ∈ arc_alternatives tokens ↔
    gather_values (fun acc text => add_alternative (acc.getD []) text) none
      (values_of ((token_arcs tokens).zip (tokens.map fun token => token.text))
        (arc.start, arc.stop)) = some arc.terms := by
  have hlookup := @lookup_gather_into _ _ _ _ (fun acc text => add_alternative (acc.getD []) text)
    ∅ ((token_arcs tokens).zip (tokens.map fun token => token.text)) (arc.start, arc.stop)
  rw [AList.lookup_empty] at hlookup
  rw [← hlookup, ← Option.mem_def, AList.mem_lookup_iff, arc_alternatives,
    (List.perm_insertionSort _ _).mem_iff, List.mem_map]
  grind

theorem mem_texts_between {m n : ℕ} :
    text ∈ values_of ((token_arcs tokens).zip (tokens.map fun token => token.text)) (m, n) ↔
      ∃ a ∈ word_arcs tokens, a.source = m ∧ a.target = n ∧ a.text = text := by
  rw [mem_values_of, List.zip_map_right, ← List.zip_swap, List.map_map, List.mem_map]
  constructor
  · rintro ⟨a, ha, heq⟩
    obtain ⟨harc, htext⟩ := Prod.mk.inj heq
    exact ⟨a, ha, congrArg Prod.fst harc, congrArg Prod.snd harc, htext⟩
  · rintro ⟨a, ha, rfl, rfl, rfl⟩
    exact ⟨a, ha, rfl⟩

/-- **The alternatives of an arc** are the words that share its ends. -/
theorem mem_terms {arc : PhraseArc} (h : arc ∈ arc_alternatives tokens) :
    text ∈ arc.terms ↔ ∃ a ∈ word_arcs tokens, a.source = arc.start ∧
      a.target = arc.stop ∧ a.text = text := by
  rw [mem_gathered (mem_arc_alternatives_iff.1 h), ← mem_texts_between]
  simp

theorem terms_ne_nil {arc : PhraseArc} (h : arc ∈ arc_alternatives tokens) : arc.terms ≠ [] := by
  have hgathered := mem_arc_alternatives_iff.1 h
  rcases htexts : values_of ((token_arcs tokens).zip (tokens.map fun token => token.text))
    (arc.start, arc.stop) with _ | ⟨t, texts⟩
  · rw [htexts] at hgathered
    exact absurd hgathered.symm (Option.some_ne_none _)
  · refine List.ne_nil_of_mem (a := t) ((mem_gathered hgathered).2 (Or.inr ?_))
    grind

theorem nodup_alternatives (tokens : List Token) : (arc_alternatives tokens).Nodup := by
  rw [arc_alternatives, (List.perm_insertionSort _ _).nodup_iff]
  refine List.Nodup.of_map (fun arc : PhraseArc => (arc.start, arc.stop)) ?_
  rw [List.map_map]
  exact (gather_into (fun acc text => add_alternative (acc.getD []) text) ∅
    ((token_arcs tokens).zip (tokens.map fun token => token.text))).nodupKeys

theorem exists_arc_alternative {a : WordArc} (h : a ∈ word_arcs tokens) :
    ∃ arc ∈ arc_alternatives tokens, arc.start = a.source ∧ arc.stop = a.target ∧
      a.text ∈ arc.terms := by
  have hmem : a.text ∈ values_of ((token_arcs tokens).zip (tokens.map fun token => token.text))
    (a.source, a.target) := mem_texts_between.2 ⟨a, h, rfl, rfl, rfl⟩
  obtain ⟨terms, hterms⟩ := @exists_gather_values _ _
    (fun acc text => add_alternative (acc.getD []) text) _ (List.ne_nil_of_mem hmem) none
  have harc : (⟨a.source, a.target, terms⟩ : PhraseArc) ∈ arc_alternatives tokens :=
    mem_arc_alternatives_iff.2 hterms
  exact ⟨_, harc, rfl, rfl, (mem_terms harc).2 ⟨a, h, rfl, rfl, rfl⟩⟩

/-! ## Paths -/

theorem forward_alternatives (h : InOrder (token_arcs tokens)) :
    Forward PhraseArc.start PhraseArc.stop (arc_alternatives tokens) := by
  intro arc harc
  obtain ⟨text, htext⟩ := List.exists_mem_of_ne_nil _ (terms_ne_nil harc)
  obtain ⟨a, ha, hstart, hstop, -⟩ := (mem_terms harc).1 htext
  rw [← hstart, ← hstop]
  exact h.forward a.2 (List.of_mem_zip ha).2

theorem exists_arc_path {m n : ℕ} {path : List WordArc}
    (h : PathOf WordArc.source WordArc.target (word_arcs tokens) m path n) :
    ∃ arcs, PathOf PhraseArc.start PhraseArc.stop (arc_alternatives tokens) m arcs n ∧
      List.Forall₂ (fun a (arc : PhraseArc) => WordArc.text a ∈ arc.terms) path arcs := by
  obtain ⟨hpath, hsub⟩ := h
  induction path generalizing m with
  | nil => exact ⟨[], ⟨hpath, fun _ h => absurd h List.not_mem_nil⟩, .nil⟩
  | cons a path ih =>
      rw [List.forall_mem_cons] at hsub
      obtain ⟨rfl, hrest⟩ := hpath
      obtain ⟨arc, harc, hstart, hstop, htext⟩ := exists_arc_alternative hsub.1
      obtain ⟨arcs, harcs, htexts⟩ := ih hrest hsub.2
      refine ⟨arc :: arcs, ?_, .cons htext htexts⟩
      rw [← hstart]
      exact (PathOf.single harc).append (hstop ▸ harcs)

theorem exists_word_path {m n : ℕ} {arcs : List PhraseArc} {words : List String}
    (h : PathOf PhraseArc.start PhraseArc.stop (arc_alternatives tokens) m arcs n)
    (hwords : List.Forall₂ (fun word (arc : PhraseArc) => word ∈ arc.terms) words arcs) :
    ∃ path, PathOf WordArc.source WordArc.target (word_arcs tokens) m path n ∧
      spelling path = words := by
  obtain ⟨hpath, hsub⟩ := h
  induction hwords generalizing m with
  | nil => exact ⟨[], ⟨hpath, fun _ h => absurd h List.not_mem_nil⟩, rfl⟩
  | cons hword _ ih =>
      rw [List.forall_mem_cons] at hsub
      obtain ⟨rfl, hrest⟩ := hpath
      obtain ⟨a, ha, hstart, hstop, rfl⟩ := (mem_terms hsub.1).1 hword
      obtain ⟨path, hpath, rfl⟩ := ih hrest hsub.2
      refine ⟨a :: path, ?_, rfl⟩
      rw [← hstart]
      exact (PathOf.single ha).append (hstop ▸ hpath)

/-- **The paths of the words spell what the paths of the arcs have.** -/
theorem spelled_iff {m n : ℕ} {words : List String} :
    (∃ path, PathOf WordArc.source WordArc.target (word_arcs tokens) m path n ∧
      spelling path = words) ↔
    ∃ arcs, PathOf PhraseArc.start PhraseArc.stop (arc_alternatives tokens) m arcs n ∧
      List.Forall₂ (fun word (arc : PhraseArc) => word ∈ arc.terms) words arcs := by
  constructor
  · rintro ⟨path, hpath, rfl⟩
    obtain ⟨arcs, harcs, htexts⟩ := exists_arc_path hpath
    exact ⟨arcs, harcs, List.forall₂_map_left_iff.2 htexts⟩
  grind [exists_word_path]

theorem last_of_alternatives (tokens : List Token) :
    (((arc_alternatives tokens).map PhraseArc.stop).max?).getD 0 = graph_end tokens := by
  have hstops : ∀ n, n ∈ (arc_alternatives tokens).map PhraseArc.stop ↔
      n ∈ (token_arcs tokens).map Prod.snd := by
    intro n
    rw [← map_snd_word_arcs, List.map_map, List.mem_map, List.mem_map]
    constructor
    · rintro ⟨arc, harc, rfl⟩
      obtain ⟨text, htext⟩ := List.exists_mem_of_ne_nil _ (terms_ne_nil harc)
      obtain ⟨a, ha, -, hstop, -⟩ := (mem_terms harc).1 htext
      exact ⟨a, ha, hstop⟩
    · rintro ⟨a, ha, rfl⟩
      obtain ⟨arc, harc, -, hstop, -⟩ := exists_arc_alternative ha
      exact ⟨arc, harc, hstop⟩
  rw [graph_end]
  rcases hmax : ((token_arcs tokens).map Prod.snd).max? with _ | n
  · have hnil := List.max?_eq_none_iff.1 hmax
    rw [List.max?_eq_none_iff.2 (List.eq_nil_iff_forall_not_mem.2 fun n hn => ?_)]
    grind
  grind [List.max?_eq_some_iff]

end Laurus
