import Laurus.Analysis.FlatGraph
import Laurus.Analysis.Helpers.SynonymGraph

/-!
# Synonyms spell exactly the alternatives

What the filter emits for a stretch of a stream is a bundle whose words are the
stretch's alternatives (`bundle_emit`), and the bundles are in series
(`in_series_stages`). So the paths of the graph are the choices of an alternative
for each stretch, and flattened each stretch starts where the longest alternatives
before it end (`filter_spec`), below the limit of positions: past it every token is
put on the last node (`filter_spec_counterexample`).
-/

namespace Laurus

namespace SynonymGraphBuilder

open ArcPath Depth

/-- **A flat stream**: each token spans one position, and none is stacked on another. -/
def FlatStream (tokens : List Token) : Prop :=
  (∀ token ∈ tokens, token.position_length ≤ 1) ∧
    ∀ token ∈ tokens.tail, 1 ≤ token.position_increment

/-- The most words of an alternative. -/
def longest_alternative (builder : SynonymGraphBuilder) (stretch : Stretch) : ℕ :=
  (((builder.alternatives stretch).map List.length).max?).getD 0

/-- A choice of one alternative for each stretch. -/
def Choice (builder : SynonymGraphBuilder) (stretches : List Stretch)
    (choice : List (List String)) : Prop :=
  List.Forall₂ (fun words stretch => words ∈ builder.alternatives stretch) choice stretches

/-- **An expansion**: what is emitted for each stretch of a stream, as one graph. -/
structure Expands (builder : SynonymGraphBuilder) (stretches : List Stretch)
    (emitted : List (List Token)) : Prop where
  /-- A token that starts no match stays as it is. -/
  unchanged : List.Forall₂ (fun stretch out => ∀ token, stretch = .unmatched token →
    out = [token]) stretches emitted
  /-- The word sequences of complete paths are those of the choices. -/
  spelled : ∀ words, (∃ path, FirstToLast emitted.flatten path ∧ spelling path = words) ↔
    ∃ choice, builder.Choice stretches choice ∧ choice.flatten = words
  /-- Every choice is on exactly one path. -/
  one_path : ∃ choice_of : List WordArc → List (List String),
    Set.BijOn choice_of {path | FirstToLast emitted.flatten path}
      {choice | builder.Choice stretches choice} ∧
    ∀ path, FirstToLast emitted.flatten path → (choice_of path).flatten = spelling path
  /-- Flattened, the first token of a stretch is where it was in the stream, right after
  the longest alternatives of the stretches before. -/
  follows : ∀ before next after, stretches = before ++ next :: after →
    ∃ token out stop, emitted[before.length]? = some (token :: out) ∧
      (placed (flatten_token_graph emitted.flatten))[
        (emitted.take before.length).flatten.length]? =
        some (token.word, (before.map builder.longest_alternative).sum, stop)

variable {builder : SynonymGraphBuilder} {tokens : List Token} {stretch : Stretch}
  {stretches before after : List Stretch} {previous : Option ℕ}

/-! ## One stretch -/

/-- The node that follows `previous`. -/
def next_node (previous : Option ℕ) : ℕ := (previous.map (· + 1)).getD 0

/-- How many nodes a stretch takes. -/
def width (builder : SynonymGraphBuilder) : Stretch → ℕ
  | .matched tokens synonyms =>
    (tokens.head?.map fun first => end_node 1 (builder.match_paths first tokens synonyms)).getD 1
  | .unmatched _ => 1

/-- The increment of the first token of a stretch. -/
def Stretch.increment : Stretch → ℕ
  | .matched tokens _ => (tokens.head?.map Token.position_increment).getD 0
  | .unmatched token => token.position_increment

/-- A match has a token, and a token that starts none spans one position. -/
def Stretch.Ok : Stretch → Prop
  | .matched tokens _ => tokens ≠ []
  | .unmatched token => token.position_length ≤ 1

theorem node_after_eq {token : Token}
    (hstart : ∀ q, previous = some q → 1 ≤ token.position_increment) :
    node_after previous token = next_node previous := by
  rcases previous with _ | q
  · rfl
  · exact node_after_of_ne (Nat.ne_of_gt (hstart q rfl))

/-- **What is emitted for a stretch is a bundle** whose words are its alternatives. -/
theorem bundle_emit (hok : stretch.Ok) (hstart : ∀ q, previous = some q → 1 ≤ stretch.increment) :
    Bundle WordArc.source WordArc.target WordArc.text (arcs_from previous (builder.emit stretch))
      (next_node previous) (next_node previous + builder.width stretch)
      {words | words ∈ builder.alternatives stretch} := by
  rcases stretch with ⟨_ | ⟨first, matched⟩, synonyms⟩ | token
  · exact absurd rfl hok
  · have hbundle := @bundle_graph_of_paths
      (builder.match_paths first (first :: matched) synonyms) (next_node previous)
      first.position_increment previous (forall_match_paths_ne_nil hok) match_paths_ne_nil
      nodup_texts_match_paths fun token htoken => node_after_eq fun q hq => by
        rw [htoken]
        exact hstart q hq
    have hwords : {words | words ∈ builder.alternatives (.matched (first :: matched) synonyms)} =
        {words | words ∈ (builder.match_paths first (first :: matched) synonyms).map
          (List.map Token.text)} := Set.ext fun words => (mem_texts_match_paths words).symm
    rw [hwords]
    exact hbundle
  · have hnode := @node_after_eq previous token hstart
    have hlength : max token.position_length 1 = 1 := Nat.max_eq_right hok
    have harcs : arcs_from previous (builder.emit (.unmatched token)) =
        [(token, next_node previous, next_node previous + 1)] := by
      rw [emit, arcs_from, hnode, hlength]
      rfl
    rw [harcs]
    have hbundle := @bundle_singleton _ _ WordArc.source WordArc.target WordArc.text
      (token, next_node previous, next_node previous + 1) (Nat.lt_succ_self _)
    have hwords : {words | words ∈ builder.alternatives (.unmatched token)} = {[token.text]} :=
      Set.ext fun words => List.mem_singleton
    rw [hwords]
    exact hbundle

theorem emit_eq_cons (hok : stretch.Ok) : ∃ token out, builder.emit stretch = token :: out ∧
    token.position_increment = stretch.increment := by
  rcases stretch with ⟨_ | ⟨first, matched⟩, synonyms⟩ | token
  · exact absurd rfl hok
  · have hne := @forall_match_paths_ne_nil builder synonyms first _ hok
    have hemit : builder.emit (.matched (first :: matched) synonyms) =
        graph_of_paths first.position_increment
          (builder.match_paths first (first :: matched) synonyms) := rfl
    rcases hpaths : builder.match_paths first (first :: matched) synonyms with
      _ | ⟨_ | ⟨word, words⟩, paths⟩
    · exact absurd hpaths match_paths_ne_nil
    · grind
    · rw [hemit, hpaths]
      exact ⟨_, _, rfl, rfl⟩
  · exact ⟨token, [], rfl, rfl⟩

theorem width_pos (builder : SynonymGraphBuilder) (stretch : Stretch) :
    1 ≤ builder.width stretch := by
  rcases stretch with ⟨_ | ⟨first, matched⟩, synonyms⟩ | token
  · exact Nat.le_refl 1
  · exact le_end_node 1 _
  · exact Nat.le_refl 1

theorem stops_at_emit (hok : stretch.Ok)
    (hstart : ∀ q, previous = some q → 1 ≤ stretch.increment) :
    stops_at previous (builder.emit stretch) =
      some (next_node previous + builder.width stretch - 1) := by
  rcases stretch with ⟨_ | ⟨first, matched⟩, synonyms⟩ | token
  · exact absurd rfl hok
  · exact stops_at_graph_of_paths (forall_match_paths_ne_nil hok) match_paths_ne_nil
      fun token htoken => node_after_eq fun q hq => by
        rw [htoken]
        exact hstart q hq
  · have hnode := @node_after_eq previous token hstart
    exact congrArg some hnode

theorem next_node_stops_at_emit (hok : stretch.Ok)
    (hstart : ∀ q, previous = some q → 1 ≤ stretch.increment) :
    next_node (stops_at previous (builder.emit stretch)) =
      next_node previous + builder.width stretch := by
  grind [width_pos, stops_at_emit, next_node]

/-! ## The stretches of a stream -/

theorem Cut.ok (h : Cut builder tokens stretches)
    (hflat : ∀ token ∈ tokens, token.position_length ≤ 1) : ∀ stretch ∈ stretches, stretch.Ok := by
  induction h with
  | nil => simp
  | matched hmatch _ _ ih =>
      refine List.forall_mem_cons.2 ⟨fun hnil => ?_, ih fun token h =>
        hflat token (List.mem_of_mem_drop h)⟩
      have hlength := congrArg List.length hnil
      have hpos := hmatch.pos
      have hle := hmatch.le_length
      grind
  | unmatched _ _ ih =>
      rw [List.forall_mem_cons] at hflat
      exact List.forall_mem_cons.2 ⟨hflat.1, ih hflat.2⟩

theorem Cut.increment (h : Cut builder tokens stretches)
    (hflat : ∀ token ∈ tokens, 1 ≤ token.position_increment) :
    ∀ stretch ∈ stretches, 1 ≤ stretch.increment := by
  induction h with
  | nil => simp
  | @matched tokens len synonyms rest hmatch _ _ ih =>
      refine List.forall_mem_cons.2 ⟨?_, ih fun token h =>
        hflat token (List.mem_of_mem_drop h)⟩
      have hpos := hmatch.pos
      have hle := hmatch.le_length
      rcases tokens with _ | ⟨token, tokens⟩
      · grind
      · obtain ⟨len, rfl⟩ := Nat.exists_eq_succ_of_ne_zero (Nat.ne_of_gt hpos)
        exact hflat token List.mem_cons_self
  | unmatched _ _ ih =>
      rw [List.forall_mem_cons] at hflat
      exact List.forall_mem_cons.2 ⟨hflat.1, ih hflat.2⟩

/-- The stretches after the first start with a token of the stream after the first. -/
theorem Cut.increment_tail (h : Cut builder tokens stretches)
    (hflat : ∀ token ∈ tokens.tail, 1 ≤ token.position_increment) :
    ∀ stretch ∈ stretches.tail, 1 ≤ stretch.increment := by
  rcases h with _ | ⟨hmatch, _, hrest⟩ | ⟨_, hrest⟩
  · simp
  · refine hrest.increment fun token htoken => hflat token ?_
    obtain ⟨len, hlen⟩ := Nat.exists_eq_succ_of_ne_zero (Nat.ne_of_gt hmatch.pos)
    rw [hlen, Nat.succ_eq_one_add, ← List.drop_drop, List.drop_one] at htoken
    exact List.mem_of_mem_drop htoken
  · exact hrest.increment hflat

/-- Stretches after one at `previous`: none but the first of all is stacked. -/
def Starts (previous : Option ℕ) (stretches : List Stretch) : Prop :=
  (∀ q, previous = some q → ∀ stretch ∈ stretches, 1 ≤ stretch.increment) ∧
    ∀ stretch ∈ stretches.tail, 1 ≤ stretch.increment

theorem Starts.head (h : Starts previous (stretch :: stretches)) :
    ∀ q, previous = some q → 1 ≤ stretch.increment := fun q hq =>
  h.1 q hq stretch List.mem_cons_self

theorem Starts.tail (h : Starts previous (stretch :: stretches)) (next : Option ℕ) :
    Starts next stretches :=
  ⟨fun _ _ => h.2, fun stretch hstretch => h.2 stretch (List.mem_of_mem_tail hstretch)⟩

/-- The bundles of stretches, after a token at `previous`. -/
def stages (builder : SynonymGraphBuilder) :
    Option ℕ → List Stretch → List (Stage WordArc String)
  | _, [] => []
  | previous, stretch :: stretches =>
    { arcs := arcs_from previous (builder.emit stretch)
      stop := next_node previous + builder.width stretch
      words := {words | words ∈ builder.alternatives stretch} } ::
      builder.stages (stops_at previous (builder.emit stretch)) stretches

theorem flatMap_stages (previous : Option ℕ) (stretches : List Stretch) :
    (builder.stages previous stretches).flatMap Stage.arcs =
      arcs_from previous (stretches.flatMap builder.emit) := by
  induction stretches generalizing previous with
  | nil => rfl
  | cons stretch stretches ih =>
      rw [stages, List.flatMap_cons, ih, List.flatMap_cons, arcs_from_append]

theorem stages_append (previous : Option ℕ) (before after : List Stretch) :
    builder.stages previous (before ++ after) = builder.stages previous before ++
      builder.stages (stops_at previous (before.flatMap builder.emit)) after := by
  induction before generalizing previous with
  | nil => rfl
  | cons stretch before ih =>
      rw [List.cons_append, stages, ih, stages, List.flatMap_cons, stops_at_append,
        List.cons_append]

/-- **The bundles of a stream are in series.** -/
theorem in_series_stages (hok : ∀ stretch ∈ stretches, stretch.Ok)
    (hstarts : Starts previous stretches) :
    InSeries WordArc.source WordArc.target WordArc.text (next_node previous)
      (builder.stages previous stretches) := by
  induction stretches generalizing previous with
  | nil => trivial
  | cons stretch stretches ih =>
      rw [List.forall_mem_cons] at hok
      refine ⟨bundle_emit hok.1 hstarts.head, ?_⟩
      grind [Starts.tail, next_node_stops_at_emit, Starts.head]

theorem series_stop_stages (hok : ∀ stretch ∈ stretches, stretch.Ok)
    (hstarts : Starts previous stretches) :
    series_stop (next_node previous) (builder.stages previous stretches) =
      next_node (stops_at previous (stretches.flatMap builder.emit)) := by
  induction stretches generalizing previous with
  | nil => rfl
  | cons stretch stretches ih =>
      grind [stages, series_stop, stops_at_append, next_node_stops_at_emit, Starts.head,
        Starts.tail]

theorem choice_iff_stages (previous : Option ℕ) (choice : List (List String)) :
    List.Forall₂ (fun words stage => words ∈ stage.words) choice
        (builder.stages previous stretches) ↔ builder.Choice stretches choice := by
  induction stretches generalizing previous choice with
  | nil => exact ⟨fun h => by rw [List.forall₂_nil_right_iff.1 h]; exact List.Forall₂.nil,
      fun h => by rw [List.forall₂_nil_right_iff.1 h]; exact List.Forall₂.nil⟩
  | cons stretch stretches ih =>
      rw [Choice, stages, List.forall₂_cons_right_iff, List.forall₂_cons_right_iff]
      exact exists_congr fun words => exists_congr fun rest => and_congr_right fun _ =>
        and_congr_left fun _ => ih _ rest

/-! ## The graph -/

/-- A graph below the limit, emitted for stretches that none of is stacked. -/
structure Emitted (builder : SynonymGraphBuilder) (stretches : List Stretch)
    (graph : List Token) : Prop where
  graph_eq : graph = stretches.flatMap builder.emit
  below : Below graph
  ok : ∀ stretch ∈ stretches, stretch.Ok
  starts : Starts none stretches

variable {graph : List Token} {next : Stretch}

namespace Emitted

theorem in_series (h : Emitted builder stretches graph) :
    InSeries WordArc.source WordArc.target WordArc.text 0 (builder.stages none stretches) :=
  in_series_stages h.ok h.starts

theorem word_arcs_eq (h : Emitted builder stretches graph) :
    word_arcs graph = (builder.stages none stretches).flatMap Stage.arcs := by
  rw [h.below.word_arcs_eq, flatMap_stages, h.graph_eq]

theorem graph_end_eq (h : Emitted builder stretches graph) :
    graph_end graph = series_stop 0 (builder.stages none stretches) := by
  by_cases hne : builder.stages none stretches = []
  · have hnil : word_arcs graph = [] := by rw [h.word_arcs_eq, hne]; rfl
    rw [graph_end, ← map_snd_word_arcs, hnil, hne]
    rfl
  · refine Laurus.graph_end_eq (fun a ha => ?_) ?_
    · rw [h.word_arcs_eq] at ha
      exact h.in_series.target_le ha
    · rw [h.word_arcs_eq]
      exact h.in_series.exists_stop hne

theorem first_to_last_iff (h : Emitted builder stretches graph) {path : List WordArc} :
    FirstToLast graph path ↔ PathOf WordArc.source WordArc.target
      ((builder.stages none stretches).flatMap Stage.arcs) 0 path
        (series_stop 0 (builder.stages none stretches)) := by
  rw [FirstToLast, h.word_arcs_eq, h.graph_end_eq]

/-- **Every choice is on exactly one path.** -/
theorem bijOn (h : Emitted builder stretches graph) :
    Set.BijOn (pick WordArc.source WordArc.text (builder.stages none stretches))
      {path | FirstToLast graph path} {choice | builder.Choice stretches choice} := by
  have hpaths : {path | FirstToLast graph path} = {path | PathOf WordArc.source WordArc.target
      ((builder.stages none stretches).flatMap Stage.arcs) 0 path
        (series_stop 0 (builder.stages none stretches))} :=
    Set.ext fun path => h.first_to_last_iff
  have hchoices : {choice | builder.Choice stretches choice} = {choice |
      List.Forall₂ (fun words stage => words ∈ stage.words) choice
        (builder.stages none stretches)} :=
    Set.ext fun choice => (choice_iff_stages none choice).symm
  rw [hpaths, hchoices]
  exact h.in_series.spells

theorem flatten_pick (h : Emitted builder stretches graph) {path : List WordArc}
    (hpath : FirstToLast graph path) :
    (pick WordArc.source WordArc.text (builder.stages none stretches) path).flatten =
      spelling path := h.in_series.flatten_pick (h.first_to_last_iff.1 hpath)

theorem exists_path (h : Emitted builder stretches graph) : ∃ path, FirstToLast graph path := by
  obtain ⟨path, hpath⟩ := h.in_series.exists_path
  exact ⟨path, h.first_to_last_iff.2 hpath⟩

/-! ### Flattened -/

theorem isGreatest_longest_alternative (builder : SynonymGraphBuilder) (stretch : Stretch) :
    IsGreatest (Set.image List.length {words | words ∈ builder.alternatives stretch})
      (builder.longest_alternative stretch) := by
  have hne : (builder.alternatives stretch).map List.length ≠ [] := fun h =>
    builder.alternatives_ne_nil stretch (List.map_eq_nil_iff.1 h)
  rcases hmax : ((builder.alternatives stretch).map List.length).max? with _ | most
  · grind
  · rw [longest_alternative, hmax, Option.getD_some]
    obtain ⟨hmem, hle⟩ := List.max?_eq_some_iff.1 hmax
    refine ⟨List.mem_map.1 hmem, ?_⟩
    rintro k ⟨words, hwords, rfl⟩
    exact hle _ (List.mem_map_of_mem hwords)

theorem longest_stages (previous : Option ℕ) (stretches : List Stretch) :
    List.Forall₂ (fun stage k => IsGreatest (Set.image List.length stage.words) k)
      (builder.stages previous stretches) (stretches.map builder.longest_alternative) := by
  induction stretches generalizing previous with
  | nil => exact List.Forall₂.nil
  | cons stretch stretches ih =>
      exact List.Forall₂.cons (isGreatest_longest_alternative builder stretch) (ih _)

/-- **A stretch is as deep as the longest alternatives before it are long.** -/
theorem depth_eq (h : Emitted builder (before ++ after) graph) :
    depth (ArcStep (token_arcs graph)) (series_stop 0 (builder.stages none before)) =
      (before.map builder.longest_alternative).sum := by
  have hseries := h.in_series
  have hreached : ∀ a ∈ word_arcs graph, WordArc.source a = 0 ∨
      ∃ b ∈ word_arcs graph, WordArc.target b = WordArc.source a := by
    rw [h.word_arcs_eq]
    exact fun a ha => hseries.reached ha
  rw [stages_append] at hseries
  have hbefore := (InSeries.append.1 hseries).1
  refine depth_eq_of_isGreatest ?_
  have hset : {steps | Comes (ArcStep (token_arcs graph)) steps
      (series_stop 0 (builder.stages none before))} = {k | ∃ p, PathOf WordArc.source
        WordArc.target ((builder.stages none before).flatMap Stage.arcs) 0 p
          (series_stop 0 (builder.stages none before)) ∧ p.length = k} := by
    refine Set.ext fun k => (comes_iff hreached).trans (exists_congr fun p => ?_)
    rw [h.word_arcs_eq, stages_append, hseries.path_left]
  rw [hset]
  exact hbefore.longest (longest_stages none before)

theorem depth_lt_target (h : Emitted builder stretches graph) {a : WordArc}
    (ha : a ∈ word_arcs graph) : depth (ArcStep (token_arcs graph)) (WordArc.source a) <
      depth (ArcStep (token_arcs graph)) (WordArc.target a) := by
  have hmem : a.2 ∈ token_arcs graph := by
    rw [← map_snd_word_arcs]
    exact List.mem_map_of_mem ha
  exact depth_lt h.below.in_order.forward_step (h.below.in_order.reached_from hmem) (Or.inl hmem)

theorem word_arcs_cut (h : Emitted builder (before ++ after) graph) :
    word_arcs graph = arcs_from none (before.flatMap builder.emit) ++
      arcs_from (stops_at none (before.flatMap builder.emit)) (after.flatMap builder.emit) := by
  rw [h.below.word_arcs_eq, h.graph_eq, List.flatMap_append, arcs_from_append]

theorem rises (h : Emitted builder (before ++ after) graph) :
    (∀ b ∈ arcs_from none (before.flatMap builder.emit),
      depth (ArcStep (token_arcs graph)) (WordArc.source b) <
        depth (ArcStep (token_arcs graph)) (series_stop 0 (builder.stages none before))) ∧
    ∀ b ∈ arcs_from (stops_at none (before.flatMap builder.emit)) (after.flatMap builder.emit),
      depth (ArcStep (token_arcs graph)) (series_stop 0 (builder.stages none before)) ≤
        depth (ArcStep (token_arcs graph)) (WordArc.source b) := by
  have hseries := h.in_series
  rw [stages_append] at hseries
  obtain ⟨hbefore, hafter⟩ := InSeries.append.1 hseries
  have hrank : ∀ b ∈ word_arcs graph, depth (ArcStep (token_arcs graph)) (WordArc.source b) <
      depth (ArcStep (token_arcs graph)) (WordArc.target b) := fun b hb => h.depth_lt_target hb
  rw [h.word_arcs_cut, ← flatMap_stages, ← flatMap_stages, List.forall_mem_append] at hrank
  rw [← flatMap_stages, ← flatMap_stages]
  exact ⟨fun b hb => (hbefore.rises hrank.1 hb).2, fun b hb => (hafter.rises hrank.2 hb).1⟩

theorem exists_first_arc (h : Emitted builder (before ++ next :: after) graph) :
    ∃ token out a rest, builder.emit next = token :: out ∧ a.1 = token ∧
      WordArc.source a = series_stop 0 (builder.stages none before) ∧
      arcs_from (stops_at none (before.flatMap builder.emit))
        ((next :: after).flatMap builder.emit) = a :: rest := by
  have hok := h.ok next (List.mem_append_right _ List.mem_cons_self)
  have hok' : ∀ stretch ∈ before, stretch.Ok := fun stretch hstretch =>
    h.ok stretch (List.mem_append_left _ hstretch)
  have hstarts' : Starts none before := by
    refine ⟨fun q hq => absurd hq.symm (Option.some_ne_none _), fun stretch hstretch => ?_⟩
    refine h.starts.2 stretch ?_
    grind
  have hstart : ∀ q, stops_at none (before.flatMap builder.emit) = some q →
      1 ≤ next.increment := by
    intro q hq
    refine h.starts.2 next ?_
    rcases before with _ | ⟨first, before⟩
    · exact absurd hq.symm (Option.some_ne_none _)
    simp
  obtain ⟨token, out, hemit, hincrement⟩ := @emit_eq_cons builder next hok
  have hnode : node_after (stops_at none (before.flatMap builder.emit)) token =
      series_stop 0 (builder.stages none before) :=
    (node_after_eq fun q hq => hincrement ▸ hstart q hq).trans (series_stop_stages hok' hstarts').symm
  have harcs : arcs_from (stops_at none (before.flatMap builder.emit))
      ((next :: after).flatMap builder.emit) =
      (token, node_after (stops_at none (before.flatMap builder.emit)) token,
        node_after (stops_at none (before.flatMap builder.emit)) token +
          max token.position_length 1) ::
      arcs_from (some (node_after (stops_at none (before.flatMap builder.emit)) token))
        (out ++ after.flatMap builder.emit) := by
    rw [List.flatMap_cons, hemit, List.cons_append, arcs_from]
  exact ⟨token, out, (token, _, _), _, hemit, rfl, hnode, harcs⟩

/-- Where all before start before an entry, and none after does, sorting keeps its place. -/
theorem sort_by_start_middle {xs ys : List LaidOut} {e : LaidOut}
    (hxs : ∀ x ∈ xs, x.start < e.start) (hys : ∀ y ∈ ys, e.start ≤ y.start) :
    (sort_by_start (xs ++ e :: ys))[xs.length]? = some e := by
  have hinsert : ∀ (x : LaidOut) (as bs : List LaidOut), (∀ b ∈ bs, x.start ≤ b.start) →
      List.orderedInsert (fun a b => a.start ≤ b.start) x (as ++ bs) =
        List.orderedInsert (fun a b => a.start ≤ b.start) x as ++ bs := by
    intro x as bs hbs
    induction as with
    | nil =>
        rcases bs with _ | ⟨b, bs⟩
        · rfl
        grind
    | cons a as ih =>
        grind
  have hsort : ∀ bs : List LaidOut, (∀ x ∈ xs, ∀ b ∈ bs, x.start ≤ b.start) →
      sort_by_start (xs ++ bs) = sort_by_start xs ++ sort_by_start bs := by
    clear hxs
    intro bs hbs
    induction xs with
    | nil => rfl
    | cons x xs ih =>
        grind [sort_by_start, List.perm_insertionSort]
  have hrest : sort_by_start (e :: ys) = e :: sort_by_start ys := by
    have hstep : sort_by_start (e :: ys) =
        List.orderedInsert (fun a b => a.start ≤ b.start) e (sort_by_start ys) := rfl
    have hle : ∀ b ∈ sort_by_start ys, e.start ≤ b.start := fun b hb =>
      hys b ((List.perm_insertionSort _ _).mem_iff.1 hb)
    rw [hstep]
    exact hinsert e [] (sort_by_start ys) hle
  have hlength : (sort_by_start xs).length = xs.length := List.length_insertionSort _ _
  rw [hsort, List.getElem?_append_right hlength.le, hlength, Nat.sub_self, hrest,
    List.getElem?_cons_zero]
  grind

/-- **Flattened, a stretch starts right after the longest alternatives before it.** -/
theorem follows (h : Emitted builder (before ++ next :: after) graph) :
    ∃ token out stop, builder.emit next = token :: out ∧
      (placed (flatten_token_graph graph))[(before.flatMap builder.emit).length]? =
        some (token.word, (before.map builder.longest_alternative).sum, stop) := by
  obtain ⟨token, out, a, rest, hemit, htoken, hsource, hrest⟩ := h.exists_first_arc
  obtain ⟨hbefore, hafter⟩ := h.rises
  have harcs := h.word_arcs_cut
  rw [hrest] at harcs hafter
  have hdepth := h.depth_eq
  rw [← hsource] at hdepth
  have hmem : a ∈ word_arcs graph := by grind
  have hlength : (arcs_from none (before.flatMap builder.emit)).length =
      (before.flatMap builder.emit).length := length_arcs_from _ _
  by_cases hspan : (graph.all fun token => token.position_length ≤ 1) = true
  · -- a graph that is flat already is numbered by depth
    have hflat : flatten_token_graph graph = graph := if_pos hspan
    have hplaced : placed graph = (word_arcs graph).map fun arc => (arc.1.word, arc.2) := by
      rw [placed, word_arcs, List.zip_map_left]
      rfl
    have hself : depth (ArcStep (token_arcs graph)) (WordArc.source a) = WordArc.source a := by
      refine depth_eq_self_of_span h.below.in_order (fun b hb => ?_) ?_
      · obtain ⟨entry, hentry, rfl⟩ := List.mem_map.1 hb
        have hone := List.all_eq_true.1 hspan entry.1 (List.of_mem_zip hentry).1
        rw [decide_eq_true_iff] at hone
        rw [h.below.arc_eq hentry, Nat.max_eq_right hone]
      · refine ⟨a.2, ?_, Or.inl rfl⟩
        rw [← map_snd_word_arcs]
        exact List.mem_map_of_mem hmem
    refine ⟨token, out, a.2.2, hemit, ?_⟩
    rw [hflat, hplaced, List.getElem?_map, harcs, List.getElem?_append_right hlength.le, hlength,
      Nat.sub_self, List.getElem?_cons_zero, Option.map_some, htoken, ← hdepth, hself]
    rfl
  · have hflat : flatten_token_graph graph = renumber_from id none (sorted_entries graph) :=
      if_neg hspan
    let laid : WordArc → LaidOut := fun arc =>
      ⟨arc.1, depth (ArcStep (token_arcs graph)) arc.2.1,
        depth (ArcStep (token_arcs graph)) arc.2.2⟩
    have hlaid : laid_out graph = (arcs_from none (before.flatMap builder.emit)).map laid ++
        laid a :: rest.map laid := by
      rw [laid_out_eq h.below.in_order, ← List.map_cons, ← List.map_append, ← harcs]
      rfl
    have hmiddle := @sort_by_start_middle
      ((arcs_from none (before.flatMap builder.emit)).map laid) (rest.map laid) (laid a)
      (fun x hx => ?_) fun y hy => ?_
    · rw [← hlaid, List.length_map, hlength] at hmiddle
      refine ⟨token, out, depth (ArcStep (token_arcs graph)) a.2.2, hemit, ?_⟩
      rw [hflat, placed_sorted h.below, List.getElem?_map, sorted_entries, hmiddle,
        Option.map_some, ← hdepth, ← htoken]
      rfl
    · obtain ⟨b, hb, rfl⟩ := List.mem_map.1 hx
      have hlt := hbefore b hb
      rw [← hsource] at hlt
      exact hlt
    · obtain ⟨b, hb, rfl⟩ := List.mem_map.1 hy
      have hle := hafter b (List.mem_cons_of_mem a hb)
      rw [← hsource] at hle
      exact hle

end Emitted

/-! ## The filter -/

theorem Cut.emitted (h : Cut builder tokens stretches) (hflat : FlatStream tokens)
    (hbelow : Below (stretches.flatMap builder.emit)) :
    Emitted builder stretches (stretches.flatMap builder.emit) :=
  ⟨rfl, hbelow, h.ok hflat.1, fun _ hq => absurd hq.symm (Option.some_ne_none _),
    h.increment_tail hflat.2⟩

/-- **Synonyms spell exactly the alternatives**, below the limit of positions: the complete
paths of the graph are the choices of an alternative for each leftmost longest match, each on
one path, and flattening puts what follows a match right after its longest alternative. -/
theorem filter_spec (builder : SynonymGraphBuilder) (tokens : List Token)
    (hflat : FlatStream tokens)
    (hbelow : ∀ graph, builder.filter tokens = some graph → Below graph) :
    ∃ stretches emitted, (∀ cut, Cut builder tokens cut ↔ cut = stretches) ∧
      builder.filter tokens = some emitted.flatten ∧ Expands builder stretches emitted := by
  obtain ⟨stretches, hcut, hfilter⟩ := builder.filter_eq tokens
  have h := hcut.emitted hflat (hbelow _ hfilter)
  refine ⟨stretches, stretches.map builder.emit,
    fun cut => ⟨fun hcut' => hcut'.unique hcut, fun heq => heq ▸ hcut⟩, hfilter, ?_, ?_, ?_, ?_⟩
  · rw [List.forall₂_map_right_iff]
    refine List.forall₂_same.2 fun stretch _ token hstretch => ?_
    rw [hstretch]
    rfl
  · intro words
    constructor
    · rintro ⟨path, hpath, rfl⟩
      exact ⟨_, h.bijOn.mapsTo hpath, h.flatten_pick hpath⟩
    · rintro ⟨choice, hchoice, rfl⟩
      obtain ⟨path, hpath, rfl⟩ := h.bijOn.surjOn hchoice
      exact ⟨path, hpath, (h.flatten_pick hpath).symm⟩
  · exact ⟨_, h.bijOn, fun path hpath => h.flatten_pick hpath⟩
  · rintro before next after rfl
    obtain ⟨token, out, stop, hemit, hplaced⟩ := h.follows
    have hlength : (before.map builder.emit).length = before.length := List.length_map _
    refine ⟨token, out, stop, ?_, ?_⟩
    · rw [List.getElem?_map, List.getElem?_append_right (Nat.le_refl _), Nat.sub_self,
        List.getElem?_cons_zero, Option.map_some, hemit]
    · have htake : ((before ++ next :: after).map builder.emit).take before.length =
          before.map builder.emit := by
        rw [List.map_append, ← hlength, List.take_left]
      rw [htake]
      exact hplaced

/-- One word beside two others, before one that starts no match. -/
theorem filter_spec_beside :
    let builder : SynonymGraphBuilder :=
      ⟨⟨[("ml", 0)], [["machine learning"]], 1⟩, none, true⟩
    let tokens : List Token := [⟨"ml", 0, 0, 2, false, none, 1, 1⟩,
      ⟨"tutorial", 1, 3, 11, false, none, 1, 1⟩]
    ∃ stretches emitted, (∀ cut, Cut builder tokens cut ↔ cut = stretches) ∧
      builder.filter tokens = some emitted.flatten ∧ Expands builder stretches emitted := by
  refine filter_spec _ _ ⟨by decide, by decide⟩ fun graph hgraph => ?_
  have hfilter : SynonymGraphBuilder.filter
      ⟨⟨[("ml", 0)], [["machine learning"]], 1⟩, none, true⟩
      [⟨"ml", 0, 0, 2, false, none, 1, 1⟩, ⟨"tutorial", 1, 3, 11, false, none, 1, 1⟩] =
      some [⟨"ml", 0, 0, 2, false, none, 1, 2⟩,
        ⟨"machine", 0, 0, 2, false, some .Synonym, 0, 1⟩,
        ⟨"learning", 1, 0, 2, false, some .Synonym, 1, 1⟩,
        ⟨"tutorial", 1, 3, 11, false, none, 1, 1⟩] := by decide +kernel
  obtain rfl := Option.some.inj (hgraph.symm.trans hfilter)
  unfold Below
  decide

/-! ## Past the limit -/

section Repeated

/-- A filter without synonyms. -/
def no_synonyms : SynonymGraphBuilder := ⟨SynonymDictionary.new, none, true⟩

/-- One word, over and over. -/
def repeated (n : ℕ) : List Token := List.replicate n ⟨"a", 0, 0, 1, false, none, 1, 1⟩

theorem not_matches_no_synonyms (tokens : List Token) (len : ℕ) (synonyms : List String) :
    ¬ no_synonyms.Matches tokens len synonyms := by
  intro h
  rcases h.has_synonyms with hspace | ⟨-, -, hjoined⟩
  · exact Option.some_ne_none _ hspace.symm
  · exact Option.some_ne_none _ hjoined.symm

theorem cut_repeated (n : ℕ) : Cut no_synonyms (repeated n)
    (List.replicate n (.unmatched ⟨"a", 0, 0, 1, false, none, 1, 1⟩)) := by
  induction n with
  | zero => exact .nil
  | succ n ih => exact .unmatched (not_matches_no_synonyms _) ih

theorem emit_repeated (n : ℕ) :
    (List.replicate n (Stretch.unmatched ⟨"a", 0, 0, 1, false, none, 1, 1⟩)).flatMap
      no_synonyms.emit = repeated n := by
  induction n with
  | zero => rfl
  | succ n ih => rw [List.replicate_succ, List.flatMap_cons, ih]; rfl

theorem flat_repeated (n : ℕ) : FlatStream (repeated n) := by
  have hall : ∀ token ∈ repeated n, token.position_length ≤ 1 ∧ 1 ≤ token.position_increment := by
    intro token htoken
    rw [List.eq_of_mem_replicate htoken]
    exact ⟨Nat.le_refl 1, Nat.le_refl 1⟩
  exact ⟨fun token htoken => (hall token htoken).1,
    fun token htoken => (hall token (List.mem_of_mem_tail htoken)).2⟩

theorem below_repeated : Below (repeated MAX_POSITION) := by
  intro entry hentry
  obtain ⟨htoken, hposition⟩ := List.of_mem_zip hentry
  have hlt := lt_of_mem_token_positions hposition
  have hlength : (repeated MAX_POSITION).length = MAX_POSITION := List.length_replicate
  have hspan := (flat_repeated _).1 entry.1 htoken
  omega

theorem length_choice_repeated (n : ℕ) {choice : List (List String)}
    (h : no_synonyms.Choice
      (List.replicate n (.unmatched ⟨"a", 0, 0, 1, false, none, 1, 1⟩)) choice) :
    choice.flatten.length = n := by
  induction n generalizing choice with
  | zero => rw [List.forall₂_nil_right_iff.1 h]; rfl
  | succ n ih =>
      obtain ⟨words, rest, hwords, hrest, rfl⟩ := List.forall₂_cons_right_iff.1 h
      obtain rfl := List.mem_singleton.1 hwords
      rw [List.flatten_cons, List.length_append, ih hrest, Nat.add_comm]
      rfl

theorem exists_path_repeated (n k : ℕ) (hbelow : Below (repeated n)) : ∃ path stop,
    PathOf WordArc.source WordArc.target (word_arcs (repeated (n + k))) 0 path stop ∧
      path.length = n ∧ n ≤ stop := by
  have h : Emitted no_synonyms _ (repeated n) :=
    emit_repeated n ▸ (cut_repeated n).emitted (flat_repeated n)
      (by rw [emit_repeated]; exact hbelow)
  obtain ⟨path, hpath⟩ := h.exists_path
  have hlength : path.length = n := by
    have hchoice := length_choice_repeated n (h.bijOn.mapsTo hpath)
    rw [h.flatten_pick hpath, spelling, List.length_map] at hchoice
    exact hchoice
  have hstop : n ≤ graph_end (repeated n) := by
    have hle := PathOf.length_le (h.word_arcs_eq ▸ h.in_series.forward) hpath
    omega
  obtain ⟨rest, hrest⟩ := word_arcs_append (repeated n) (repeated k)
  refine ⟨path, _, PathOf.mono hpath fun a ha => ?_, hlength, hstop⟩
  rw [repeated, List.replicate_add]
  exact hrest ▸ List.mem_append_left rest ha

theorem target_le_max {graph : List Token} {a : WordArc} (ha : a ∈ word_arcs graph) :
    WordArc.target a ≤ MAX_POSITION := by
  obtain ⟨entry, -, heq⟩ := List.mem_map.1 (List.of_mem_zip ha).2
  rw [WordArc.target, ← heq, u32_saturating_add]
  exact Nat.min_le_right _ _

theorem exists_short_path {n : ℕ} (hn : 1 ≤ n) (hmax : n = MAX_POSITION) (k : ℕ)
    (hbelow : Below (repeated n)) :
    ∃ path, FirstToLast (repeated (n + k)) path ∧ path.length = n := by
  obtain ⟨path, stop, hpath, hlength, hstop⟩ := exists_path_repeated n k hbelow
  have hend : graph_end (repeated (n + k)) = stop := by
    rcases List.eq_nil_or_concat' path with rfl | ⟨path, a, rfl⟩
    · grind
    · have ha := hpath.sub a (List.mem_append_right _ (List.mem_singleton_self a))
      have htarget := (isPath_concat.1 hpath.isPath).2
      refine Laurus.graph_end_eq (fun b hb => ?_) ⟨a, ha, htarget⟩
      have hle' := target_le_max hb
      omega
  exact ⟨path, by rw [FirstToLast, hend]; exact hpath, hlength⟩

/-- A stream of two words more than there are positions. -/
theorem filter_spec_counterexample :
    FlatStream (repeated (MAX_POSITION + 2)) ∧
      ¬ ∃ stretches emitted,
        (∀ cut, Cut no_synonyms (repeated (MAX_POSITION + 2)) cut ↔ cut = stretches) ∧
          no_synonyms.filter (repeated (MAX_POSITION + 2)) = some emitted.flatten ∧
            Expands no_synonyms stretches emitted := by
  refine ⟨flat_repeated _, ?_⟩
  rintro ⟨stretches, emitted, hcut, hfilter, hexpands⟩
  obtain ⟨path, hpath, hlength⟩ := exists_short_path (by decide) rfl 2 below_repeated
  obtain rfl := (hcut _).1 (cut_repeated _)
  obtain ⟨cut, hcut', hfilter'⟩ := no_synonyms.filter_eq (repeated (MAX_POSITION + 2))
  obtain rfl := (hcut _).1 hcut'
  rw [emit_repeated, hfilter] at hfilter'
  rw [← Option.some.inj hfilter'] at hpath
  obtain ⟨choice, hchoice, hwords⟩ := (hexpands.spelled _).1 ⟨path, hpath, rfl⟩
  have hlong := length_choice_repeated _ hchoice
  rw [hwords, spelling, List.length_map, hlength] at hlong
  omega

end Repeated

end SynonymGraphBuilder

end Laurus
