import Laurus.Vector.Helpers.HnswGraph
import Laurus.Vector.Model.HnswSearch
import Mathlib.Data.Finset.Card
import Mathlib.Data.List.GetD
import Mathlib.Logic.Relation

/-!
# The descent and the traversals end, and what they leave

The descent moves to a strictly nearer node or ends its level, so a level
takes at most one turn for each nearer node. A traversal takes a node off
the frontier in each turn, and a node enters the frontier only when it is
first visited. What it keeps is `Sound` throughout; where the result heap
has room for every node and no cap is met, it is also `Complete`: what has
been visited is in the result heap when it is admitted, and has been
expanded or waits to be.
-/

namespace Laurus

/-!
## Distances by ordinal and by document

The traversals score ordinals, the allow-set scan scores documents. Both
read the record at the document's position: where ordinals are taken for
positions, the segment has one field and one record for each document
(`calc_dist_ord_eq`).
-/

section Positions

variable {vector_ids : List (ℕ × String)} {field : String} {doc_id pos : ℕ}

theorem position_index_eq_some (h : position_index vector_ids field doc_id = some pos) :
    vector_ids[pos]? = some (doc_id, field) := by
  obtain ⟨record, hlast, rfl⟩ := Option.map_eq_some_iff.1 h
  grind

theorem position_index_isSome (h : (doc_id, field) ∈ vector_ids) :
    ∃ pos, position_index vector_ids field doc_id = some pos := by
  obtain ⟨i, hi, heq⟩ := List.mem_iff_getElem.1 h
  have hmem : ((doc_id, field), i) ∈
      vector_ids.zipIdx.filter fun record => record.1 = (doc_id, field) := by grind
  have hne := List.ne_nil_of_mem hmem
  exact ⟨_, by rw [position_index, List.getLast?_eq_some_getLast hne]; rfl⟩

theorem position_index_lt (h : position_index vector_ids field doc_id = some pos) :
    pos < vector_ids.length := (List.getElem?_eq_some_iff.1 (position_index_eq_some h)).1

end Positions

namespace HnswIndexReader

variable {V : Type} {reader : HnswIndexReader V} {field : String} {doc_id pos ord : ℕ}

theorem mem_doc_ids_of_position (h : reader.position field doc_id = some pos) :
    doc_id ∈ reader.graph.doc_ids := by
  rw [reader.ordinals, (unique_ids_spec reader.sorted).2]
  obtain ⟨hlt, heq⟩ := List.getElem?_eq_some_iff.1 (position_index_eq_some h)
  grind

theorem nodup_doc_ids (reader : HnswIndexReader V) : reader.graph.doc_ids.Nodup := by
  rw [reader.ordinals]
  exact unique_ids_nodup reader.sorted

theorem doc_id_eq_getElem (h : ord < reader.graph.doc_ids.length) :
    reader.graph.doc_id ord = reader.graph.doc_ids[ord] := List.getD_eq_getElem _ _ h

theorem doc_id_injective {a b : ℕ} (ha : a < reader.graph.doc_ids.length)
    (hb : b < reader.graph.doc_ids.length) (h : reader.graph.doc_id a = reader.graph.doc_id b) :
    a = b := by
  rw [doc_id_eq_getElem ha, doc_id_eq_getElem hb] at h
  exact (reader.nodup_doc_ids.getElem_inj_iff).1 h

/-- **Where ordinals are taken for positions, they are.** -/
theorem position_of_identity (h : reader.identity = true) (hfield : field ∈ reader.field_dict)
    (hord : ord < reader.graph.doc_ids.length) :
    reader.position field (reader.graph.doc_id ord) = some ord := by
  rw [identity, Bool.and_eq_true, decide_eq_true_eq, decide_eq_true_eq] at h
  obtain ⟨hfields, hlen⟩ := h
  have hids : reader.graph.doc_ids = reader.vector_ids.map Prod.fst := by
    grind [ordinals, unique_ids_sublist]
  -- the records of one field and distinct documents are told apart by the document
  have honly : ∀ record ∈ reader.vector_ids, record.2 = field := by
    intro record hrecord
    have hmem := List.mem_dedup.2 (reader.fields_known record hrecord)
    have hmem' := List.mem_dedup.2 hfield
    grind [List.mem_iff_getElem]
  have hlt : ord < reader.vector_ids.length := by rwa [hlen]
  have hrecord : reader.vector_ids[ord] = (reader.graph.doc_id ord, field) := by
    grind [doc_id_eq_getElem]
  obtain ⟨pos, hpos⟩ := position_index_isSome (hrecord ▸ List.getElem_mem hlt)
  obtain ⟨hposlt, hposeq⟩ := List.getElem?_eq_some_iff.1 (position_index_eq_some hpos)
  grind [doc_id_eq_getElem, position, doc_id_injective]

end HnswIndexReader

namespace HnswSearcher

variable {V 𝕜 σ : Type} [LinearOrder 𝕜] {searcher : HnswSearcher V 𝕜 σ} {field : String}
variable {doc_id pos ord : ℕ}

omit [LinearOrder 𝕜] in
theorem calc_dist_of_live (h : searcher.reader.is_deleted doc_id = false) :
    searcher.calc_dist field doc_id =
      ((searcher.reader.position field doc_id).map searcher.distance_at).getD searcher.missing := by
  unfold calc_dist distance_doc HnswIndexReader.get_position
  grind

omit [LinearOrder 𝕜] in
/-- **The distance of an ordinal is the distance of its document.** -/
theorem calc_dist_ord_eq (hord : ord < searcher.reader.graph.doc_ids.length) :
    searcher.calc_dist_ord field ord =
      searcher.calc_dist field (searcher.reader.graph.doc_id ord) := by
  unfold calc_dist_ord
  split
  · rename_i hpooled
    have hfield := searcher.reader.pooled_known field hpooled
    rw [calc_dist, if_pos hpooled, distance_doc, HnswIndexReader.field_ord_to_pos]
    split
    · rename_i hidentity
      rw [HnswIndexReader.position_of_identity hidentity hfield hord]
      rfl
    · have htable : (searcher.reader.graph.doc_ids.map fun id =>
          (searcher.reader.position field id).getD U32_MAX).getD ord U32_MAX =
          (searcher.reader.position field (searcher.reader.graph.doc_id ord)).getD U32_MAX := by
        rw [List.getD_eq_getElem _ _ (by rwa [List.length_map]), List.getElem_map,
          HnswIndexReader.doc_id_eq_getElem hord]
      rw [distance_ord, htable]
      rcases hpos : searcher.reader.position field (searcher.reader.graph.doc_id ord) with _ | pos
      · rw [Option.getD_none, if_pos rfl]
      · have hlt := position_index_lt hpos
        have hfew := searcher.reader.few_records
        grind
  · rfl

end HnswSearcher

namespace HnswSearcher

variable {𝕜 : Type} [LinearOrder 𝕜] {graph : OrdinalHnswGraph} {dist : ℕ → 𝕜}

/-! ## The greedy descent -/

variable {ord : ℕ} {neighbors : List ℕ} {curr : Candidate 𝕜} {t : Traversal 𝕜} {neighbor start : ℕ}

theorem neighbors_lt {level other : ℕ}
    (h : graph.neighbors ord level = some neighbors) (hmem : other ∈ neighbors) :
    other < graph.doc_ids.length := by
  unfold OrdinalHnswGraph.neighbors at h
  rcases hnode : graph.nodes[ord]? with _ | layers
  · grind
  · rw [List.getD_eq_getElem?_getD, hnode, Option.getD_some] at h
    exact graph.neighbors_lt layers (List.mem_of_getElem? hnode) neighbors
      (List.mem_of_getElem? h) other hmem

/-- A candidate is a node at its own distance. -/
structure IsNode (graph : OrdinalHnswGraph) (dist : ℕ → 𝕜) (c : Candidate 𝕜) : Prop where
  ord_lt : c.ord < graph.doc_ids.length
  distance : c.distance = dist c.ord

theorem greedy_fold (neighbors : List ℕ) (st : Candidate 𝕜 × Bool) :
    neighbors.foldl (fun st neighbor =>
        if dist neighbor < st.1.distance then
          (({ ord := neighbor, distance := dist neighbor } : Candidate 𝕜), true)
        else st) st = st ∨
      ∃ neighbor ∈ neighbors, dist neighbor < st.1.distance ∧
        neighbors.foldl (fun st neighbor =>
          if dist neighbor < st.1.distance then
            (({ ord := neighbor, distance := dist neighbor } : Candidate 𝕜), true)
          else st) st = ({ ord := neighbor, distance := dist neighbor }, true) := by
  induction neighbors generalizing st with
  | nil => exact Or.inl rfl
  | cons neighbor neighbors ih =>
      grind

theorem greedy_pass_cases (dist : ℕ → 𝕜) (neighbors : List ℕ) (curr : Candidate 𝕜) :
    greedy_pass dist neighbors curr = (curr, false) ∨
      ∃ neighbor ∈ neighbors, dist neighbor < curr.distance ∧
        greedy_pass dist neighbors curr = ({ ord := neighbor, distance := dist neighbor }, true) :=
  greedy_fold neighbors (curr, false)

/-- How many nodes are nearer. -/
def nearer (graph : OrdinalHnswGraph) (dist : ℕ → 𝕜) (d : 𝕜) : ℕ :=
  ((Finset.range graph.doc_ids.length).filter fun ord => dist ord < d).card

theorem nearer_le (d : 𝕜) : nearer graph dist d ≤ graph.doc_ids.length := by
  have h := Finset.card_filter_le (Finset.range graph.doc_ids.length) fun ord => dist ord < d
  rwa [Finset.card_range] at h

theorem nearer_lt {d : 𝕜} (hord : ord < graph.doc_ids.length) (h : dist ord < d) :
    nearer graph dist (dist ord) < nearer graph dist d := by
  refine Finset.card_lt_card ((Finset.ssubset_iff_of_subset ?_).2 ⟨ord, ?_, ?_⟩)
  · grind
  · grind
  simp

/-- **A level ends**, at a node. -/
theorem greedy_level_ends (level : ℕ) (h : IsNode graph dist curr) :
    ∃ r, IsNode graph dist r ∧ ∀ turns, nearer graph dist curr.distance < turns →
      greedy_level graph dist level turns curr = some r := by
  induction hn : nearer graph dist curr.distance using Nat.strong_induction_on generalizing curr with
  | _ n ih =>
      rcases hneighbors : graph.neighbors curr.ord level with _ | neighbors
      · refine ⟨curr, h, fun turns hturns => ?_⟩
        obtain ⟨turns, rfl⟩ := Nat.exists_eq_succ_of_ne_zero (by omega : turns ≠ 0)
        rw [greedy_level, hneighbors]
      · rcases greedy_pass_cases dist neighbors curr with hpass | ⟨nb, hnb, hnear, hpass⟩
        · refine ⟨curr, h, fun turns hturns => ?_⟩
          obtain ⟨turns, rfl⟩ := Nat.exists_eq_succ_of_ne_zero (by omega : turns ≠ 0)
          simp only [greedy_level, hneighbors, hpass, Bool.false_eq_true, if_false]
        · have hnb_lt := neighbors_lt hneighbors hnb
          have hfewer : nearer graph dist (dist nb) < n := hn ▸ nearer_lt hnb_lt hnear
          obtain ⟨r, hr, hrun⟩ := ih _ hfewer
            (show IsNode graph dist { ord := nb, distance := dist nb } from ⟨hnb_lt, rfl⟩) rfl
          refine ⟨r, hr, fun turns hturns => ?_⟩
          obtain ⟨turns, rfl⟩ := Nat.exists_eq_succ_of_ne_zero (by omega : turns ≠ 0)
          simp only [greedy_level, hneighbors, hpass, if_true]
          exact hrun turns (by omega)

/-- **The descent ends**, at a node. -/
theorem descend_ends (level : ℕ) {curr : Candidate 𝕜} (h : IsNode graph dist curr) :
    ∃ r, IsNode graph dist r ∧ ∀ turns, graph.doc_ids.length < turns →
      descend graph dist turns level curr = some r := by
  induction level generalizing curr with
  | zero => exact ⟨curr, h, fun _ _ => rfl⟩
  | succ level ih =>
      obtain ⟨next, hnext, hlevel⟩ := greedy_level_ends (level + 1) h
      obtain ⟨r, hr, hrest⟩ := ih hnext
      have hle : nearer graph dist curr.distance ≤ graph.doc_ids.length := nearer_le _
      grind [descend]

/-! ## What a traversal keeps -/

/-- **What holds throughout**: the frontier and the result heap hold visited
nodes at their distances, the result heap admitted ones, each once. -/
structure Sound (graph : OrdinalHnswGraph) (args : TraversalArgs 𝕜) (t : Traversal 𝕜) : Prop where
  visited_lt : ∀ ord ∈ t.visited, ord < graph.doc_ids.length
  candidates : ∀ c ∈ t.candidates, c.ord ∈ t.visited
  found : ∀ c ∈ t.found, ∃ ord ∈ t.visited, c.id = graph.doc_id ord ∧
    c.distance = args.dist ord ∧ args.admitted c.id = true
  nodup : (t.found.map ResultCandidate.id).Nodup
  count : t.n_visited = t.visited.card

variable {args : TraversalArgs 𝕜}

theorem mem_push_found {found : List (ResultCandidate 𝕜)} {entry c : ResultCandidate 𝕜}
    (h : c ∈ args.push_found found entry) : c ∈ entry :: found := by
  unfold TraversalArgs.push_found at h
  split at h
  · rcases hpop : args.heaps.found.pop (entry :: found) with _ | ⟨a, rest⟩
    · rwa [hpop] at h
    · rw [hpop] at h
      exact args.heaps.found.mem_of_mem_rest hpop h
  · exact h

theorem nodup_push_found {found : List (ResultCandidate 𝕜)} {entry : ResultCandidate 𝕜}
    (h : ((entry :: found).map ResultCandidate.id).Nodup) :
    ((args.push_found found entry).map ResultCandidate.id).Nodup := by
  unfold TraversalArgs.push_found
  split
  · rcases hpop : args.heaps.found.pop (entry :: found) with _ | ⟨a, rest⟩
    · exact h
    · rw [((args.heaps.found.perm hpop).map _).nodup_iff, List.map_cons, List.nodup_cons] at h
      exact h.2
  · exact h

/-- The nodes that may still enter the frontier, and those in it. -/
def potential (graph : OrdinalHnswGraph) (t : Traversal 𝕜) : ℕ :=
  t.candidates.length + (graph.doc_ids.length - t.visited.card)

theorem Sound.card_le (h : Sound graph args t) :
    t.visited.card ≤ graph.doc_ids.length := by
  have hsub : t.visited ⊆ Finset.range graph.doc_ids.length := fun ord hord =>
    Finset.mem_range.2 (h.visited_lt ord hord)
  have hcard := Finset.card_le_card hsub
  rwa [Finset.card_range] at hcard

theorem visited_visit (t : Traversal 𝕜) (neighbor : ℕ) :
    (visit graph args t neighbor).visited = insert neighbor t.visited := by
  unfold visit
  grind

/-- **A visit keeps what holds throughout**, on a graph whose nodes are
distinct documents. -/
theorem Sound.visit (h : Sound graph args t)
    (hinj : ∀ a b, a < graph.doc_ids.length → b < graph.doc_ids.length →
      graph.doc_id a = graph.doc_id b → a = b)
    (hlt : neighbor < graph.doc_ids.length) :
    Sound graph args (visit graph args t neighbor) ∧
      potential graph (visit graph args t neighbor) ≤ potential graph t := by
  by_cases hmem : neighbor ∈ t.visited
  · rw [HnswSearcher.visit, if_pos hmem]
    exact ⟨h, Nat.le_refl _⟩
  · have hcard : (insert neighbor t.visited).card = t.visited.card + 1 :=
      Finset.card_insert_of_notMem hmem
    have hvisited : ∀ ord ∈ insert neighbor t.visited, ord < graph.doc_ids.length := by
      intro ord hord
      rcases Finset.mem_insert.1 hord with rfl | hord
      · exact hlt
      · exact h.visited_lt ord hord
    have hroom : (insert neighbor t.visited).card ≤ graph.doc_ids.length := by
      have hsub : insert neighbor t.visited ⊆ Finset.range graph.doc_ids.length := fun ord hord =>
        Finset.mem_range.2 (hvisited ord hord)
      have hle := Finset.card_le_card hsub
      rwa [Finset.card_range] at hle
    have hcandidates : ∀ c ∈ t.candidates, c.ord ∈ insert neighbor t.visited := fun c hc =>
      Finset.mem_insert_of_mem (h.candidates c hc)
    have hfound : ∀ c ∈ t.found, ∃ ord ∈ insert neighbor t.visited, c.id = graph.doc_id ord ∧
        c.distance = args.dist ord ∧ args.admitted c.id = true := by
      grind [found]
    rw [HnswSearcher.visit, if_neg hmem]
    dsimp only
    split
    · have hpushed : ∀ c ∈ (({ ord := neighbor, distance := args.dist neighbor } : Candidate 𝕜) ::
          t.candidates), c.ord ∈ insert neighbor t.visited := by grind
      split
      · rename_i hadmitted
        refine ⟨⟨hvisited, hpushed, fun c hc => ?_, nodup_push_found ?_, ?_⟩, ?_⟩
        · rcases List.mem_cons.1 (mem_push_found hc) with rfl | hc
          · grind
          · exact hfound c hc
        · rw [List.map_cons, List.nodup_cons]
          refine ⟨fun hdup => ?_, h.nodup⟩
          -- a document in the heap is a node visited before
          obtain ⟨c, hc, hid⟩ := List.mem_map.1 hdup
          obtain ⟨ord, hord, hdoc, -⟩ := h.found c hc
          grind
        · show t.n_visited + 1 = _
          rw [hcard, h.count]
        · simp only [potential, List.length_cons, hcard]
          omega
      · refine ⟨⟨hvisited, hpushed, hfound, h.nodup, ?_⟩, ?_⟩
        · show t.n_visited + 1 = _
          rw [hcard, h.count]
        · simp only [potential, List.length_cons, hcard]
          omega
    · refine ⟨⟨hvisited, hcandidates, hfound, h.nodup, ?_⟩, ?_⟩
      · show t.n_visited + 1 = _
        rw [hcard, h.count]
      · simp only [potential, hcard]
        omega

theorem Sound.visits (h : Sound graph args t)
    (hinj : ∀ a b, a < graph.doc_ids.length → b < graph.doc_ids.length →
      graph.doc_id a = graph.doc_id b → a = b)
    (hlt : ∀ neighbor ∈ neighbors, neighbor < graph.doc_ids.length) :
    Sound graph args (neighbors.foldl (HnswSearcher.visit graph args) t) ∧
      potential graph (neighbors.foldl (HnswSearcher.visit graph args) t) ≤ potential graph t := by
  induction neighbors generalizing t with
  | nil => exact ⟨h, Nat.le_refl _⟩
  | cons neighbor neighbors ih =>
      rw [List.forall_mem_cons] at hlt
      obtain ⟨hvisit, hle⟩ := h.visit hinj hlt.1
      grind

theorem visited_visits (args : TraversalArgs 𝕜) (neighbors : List ℕ) (t : Traversal 𝕜) :
    t.visited ⊆ (neighbors.foldl (HnswSearcher.visit graph args) t).visited ∧
      ∀ neighbor ∈ neighbors,
        neighbor ∈ (neighbors.foldl (HnswSearcher.visit graph args) t).visited := by
  induction neighbors generalizing t with
  | nil => simp
  | cons neighbor neighbors ih =>
      grind [visited_visit]

theorem Sound.popped (h : Sound graph args t)
    {rest : List (Candidate 𝕜)}
    (hpop : args.heaps.candidates.pop t.candidates = some (curr, rest)) :
    Sound graph args { t with candidates := rest } ∧
      potential graph { t with candidates := rest } + 1 = potential graph t ∧
      curr.ord < graph.doc_ids.length := by
  have hmem := args.heaps.candidates.mem_of_pop hpop
  refine ⟨⟨h.visited_lt, fun c hc => ?_, h.found, h.nodup, h.count⟩, ?_, ?_⟩
  · exact h.candidates c (args.heaps.candidates.mem_of_mem_rest hpop hc)
  · have hlen := args.heaps.candidates.length_of_pop hpop
    simp only [potential, hlen]
    omega
  · exact h.visited_lt _ (h.candidates curr hmem)

/-- The neighbours expanded in a turn. -/
def expanded (graph : OrdinalHnswGraph) (curr : Candidate 𝕜) : List ℕ :=
  (graph.neighbors curr.ord 0).getD []

omit [LinearOrder 𝕜] in
theorem expanded_lt (h : neighbor ∈ expanded graph curr) :
    neighbor < graph.doc_ids.length := by
  unfold expanded at h
  rcases hneighbors : graph.neighbors curr.ord 0 with _ | neighbors
  · grind
  · rw [hneighbors, Option.getD_some] at h
    exact neighbors_lt hneighbors h

/-- **A traversal ends**: with an invariant that its turns keep, in a state
that meets it, out of frontier or at a node that stops it. -/
theorem traverse_ends {P : Traversal 𝕜 → Prop}
    (hinj : ∀ a b, a < graph.doc_ids.length → b < graph.doc_ids.length →
      graph.doc_id a = graph.doc_id b → a = b)
    (hstep : ∀ t curr rest, Sound graph args t → P t →
      args.heaps.candidates.pop t.candidates = some (curr, rest) →
      P ((expanded graph curr).foldl (HnswSearcher.visit graph args) { t with candidates := rest }))
    {t : Traversal 𝕜} (h : Sound graph args t) (hP : P t) :
    ∃ u, Sound graph args u ∧ P u ∧ (u.candidates = [] ∨ ∃ curr, stops args u curr = true) ∧
      ∃ last, last.found = u.found ∧ last.visited = u.visited ∧
        ∀ turns, potential graph t < turns → traverse graph args turns t = some last := by
  induction hn : potential graph t using Nat.strong_induction_on generalizing t with
  | _ n ih =>
      rcases hpop : args.heaps.candidates.pop t.candidates with _ | ⟨curr, rest⟩
      · refine ⟨t, h, hP, Or.inl (args.heaps.candidates.pop_eq_none_iff.1 hpop), t, rfl, rfl, ?_⟩
        intro turns hturns
        obtain ⟨turns, rfl⟩ := Nat.exists_eq_succ_of_ne_zero (by omega : turns ≠ 0)
        rw [traverse, hpop]
      · rcases hstop : stops args t curr with _ | _
        · obtain ⟨hsound, hless, -⟩ := h.popped hpop
          have hlt : ∀ nb ∈ expanded graph curr, nb < graph.doc_ids.length :=
            fun nb hnb => expanded_lt hnb
          obtain ⟨hnext, hle⟩ := hsound.visits hinj hlt
          obtain ⟨u, hu, hPu, hend, last, hfound, hvisited, hrun⟩ :=
            ih _ (by omega) hnext (hstep t curr rest h hP hpop) rfl
          refine ⟨u, hu, hPu, hend, last, hfound, hvisited, fun turns hturns => ?_⟩
          obtain ⟨turns, rfl⟩ := Nat.exists_eq_succ_of_ne_zero (by omega : turns ≠ 0)
          rw [traverse, hpop]
          dsimp only
          rw [hstop, if_neg Bool.false_ne_true]
          exact hrun turns (by omega)
        · refine ⟨t, h, hP, Or.inr ⟨curr, hstop⟩, { t with candidates := rest }, rfl, rfl, ?_⟩
          intro turns hturns
          obtain ⟨turns, rfl⟩ := Nat.exists_eq_succ_of_ne_zero (by omega : turns ≠ 0)
          rw [traverse, hpop]
          grind

/-! ## What an unhindered traversal reaches -/

/-- A neighbour on layer 0. -/
def Linked (graph : OrdinalHnswGraph) (a b : ℕ) : Prop :=
  ∃ neighbors, graph.neighbors a 0 = some neighbors ∧ b ∈ neighbors

/-- **What holds where nothing binds**: every visited node that is admitted
is in the result heap, and every visited node waits in the frontier, is
`busy`, or has all its neighbours visited. -/
structure Complete (graph : OrdinalHnswGraph) (args : TraversalArgs 𝕜) (start : ℕ)
    (busy : ℕ → Prop) (t : Traversal 𝕜) : Prop where
  start : start ∈ t.visited
  found : ∀ ord ∈ t.visited, args.admitted (graph.doc_id ord) = true →
    { id := graph.doc_id ord, distance := args.dist ord } ∈ t.found
  waits : ∀ ord ∈ t.visited, busy ord ∨ (∃ c ∈ t.candidates, c.ord = ord) ∨
    ∀ other, Linked graph ord other → other ∈ t.visited

theorem Sound.length_found (h : Sound graph args t) :
    t.found.length ≤ t.visited.card := by
  have hsub : (t.found.map ResultCandidate.id).toFinset ⊆ t.visited.image graph.doc_id := by
    grind [List.mem_toFinset, found]
  have hcard := (Finset.card_le_card hsub).trans Finset.card_image_le
  rwa [List.toFinset_card_of_nodup h.nodup, List.length_map] at hcard

/-- Where there is room, a new neighbour enters the frontier, and the result
heap when it is admitted. -/
theorem visit_of_room (hmem : neighbor ∉ t.visited)
    (hroom : t.found.length < args.ef_search) :
    HnswSearcher.visit graph args t neighbor = {
      candidates := { ord := neighbor, distance := args.dist neighbor } :: t.candidates
      found := if args.admitted (graph.doc_id neighbor)
        then { id := graph.doc_id neighbor, distance := args.dist neighbor } :: t.found else t.found
      visited := insert neighbor t.visited
      n_visited := t.n_visited + 1 } := by
  have hpush : ∀ entry, args.push_found t.found entry = entry :: t.found := by
    intro entry
    rw [TraversalArgs.push_found, if_neg (by rw [List.length_cons]; omega)]
  rw [HnswSearcher.visit, if_neg hmem]
  grind

theorem Complete.visit {busy : ℕ → Prop}
    (hsound : Sound graph args t) (h : Complete graph args start busy t)
    (hef : graph.doc_ids.length ≤ args.ef_search)
    (hlt : neighbor < graph.doc_ids.length) :
    Complete graph args start busy (HnswSearcher.visit graph args t neighbor) := by
  by_cases hmem : neighbor ∈ t.visited
  · rwa [HnswSearcher.visit, if_pos hmem]
  · have hfew : t.visited.card < graph.doc_ids.length := by
      have hsub : insert neighbor t.visited ⊆ Finset.range graph.doc_ids.length := by
        grind [Sound.visited_lt]
      have hle := Finset.card_le_card hsub
      grind
    have hlen := hsound.length_found
    rw [visit_of_room hmem (by omega)]
    refine ⟨Finset.mem_insert_of_mem h.start, fun ord hord hadmitted => ?_, fun ord hord => ?_⟩
    · grind [found]
    · dsimp only at hord ⊢
      rcases Finset.mem_insert.1 hord with rfl | hord
      · simp
      · rcases h.waits ord hord with hbusy | ⟨c, hc, hcord⟩ | hdone
        · exact Or.inl hbusy
        · grind
        grind

theorem Complete.visits {busy : ℕ → Prop}
    (hinj : ∀ a b, a < graph.doc_ids.length → b < graph.doc_ids.length →
      graph.doc_id a = graph.doc_id b → a = b)
    (hsound : Sound graph args t) (h : Complete graph args start busy t)
    (hef : graph.doc_ids.length ≤ args.ef_search)
    (hlt : ∀ neighbor ∈ neighbors, neighbor < graph.doc_ids.length) :
    Complete graph args start busy (neighbors.foldl (HnswSearcher.visit graph args) t) := by
  induction neighbors generalizing t with
  | nil => exact h
  | cons neighbor neighbors ih =>
      grind [Sound.visit, visit]

/-- **A turn keeps it**: the node popped is busy until its neighbours are
visited. -/
theorem Complete.turn
    (hinj : ∀ a b, a < graph.doc_ids.length → b < graph.doc_ids.length →
      graph.doc_id a = graph.doc_id b → a = b)
    (hsound : Sound graph args t) (h : Complete graph args start (fun _ => False) t)
    (hef : graph.doc_ids.length ≤ args.ef_search)
    {rest : List (Candidate 𝕜)}
    (hpop : args.heaps.candidates.pop t.candidates = some (curr, rest)) :
    Complete graph args start (fun _ => False)
      ((expanded graph curr).foldl (HnswSearcher.visit graph args)
        { t with candidates := rest }) := by
  have hbusy : Complete graph args start (fun ord => ord = curr.ord)
      { t with candidates := rest } := by
    refine ⟨h.start, h.found, fun ord hord => ?_⟩
    rcases h.waits ord hord with hfalse | ⟨c, hc, hcord⟩ | hdone
    · exact hfalse.elim
    · rcases (args.heaps.candidates.mem_iff_of_pop hpop).1 hc with rfl | hc
      · exact Or.inl hcord.symm
      grind
    · exact Or.inr (Or.inr hdone)
  have hlt : ∀ nb ∈ expanded graph curr, nb < graph.doc_ids.length := fun nb hnb => expanded_lt hnb
  have hafter := hbusy.visits hinj (hsound.popped hpop).1 hef hlt
  obtain ⟨-, hmem⟩ := @visited_visits _ _ graph args (expanded graph curr) { t with candidates := rest }
  refine ⟨hafter.start, hafter.found, fun ord hord => ?_⟩
  rcases hafter.waits ord hord with rfl | hwaits
  · refine Or.inr (Or.inr ?_)
    rintro other ⟨neighbors, hneighbors, hother⟩
    grind [expanded]
  · exact Or.inr hwaits

/-- **At its end everything reachable has been visited.** -/
theorem Complete.reached (hsound : Sound graph args t)
    (h : Complete graph args start (fun _ => False) t)
    (hef : graph.doc_ids.length ≤ args.ef_search)
    (hcap : ∀ max_visits, args.max_visits = some max_visits → graph.doc_ids.length < max_visits)
    (hend : t.candidates = [] ∨ ∃ curr, stops args t curr = true)
    (hreach : Relation.ReflTransGen (Linked graph) start ord) (hord : ord < graph.doc_ids.length) :
    ord ∈ t.visited := by
  rcases hend with hempty | ⟨curr, hstop⟩
  · clear hord
    induction hreach with
    | refl => exact h.start
    | tail _ hlink ih =>
        rcases h.waits _ ih with hfalse | ⟨c, hc, -⟩ | hdone
        · exact hfalse.elim
        · grind
        · exact hdone _ hlink
  · have hcard := hsound.card_le
    have hlen := hsound.length_found
    unfold stops at hstop
    rw [Bool.or_eq_true] at hstop
    rcases hstop with hfar | hmany
    · -- the heap is full, so every node has been visited
      obtain ⟨furthest, -, hboth⟩ := (Option.any_eq_true _ _).1 hfar
      rw [Bool.and_eq_true, decide_eq_true_eq, decide_eq_true_eq] at hboth
      have hall : t.visited = Finset.range graph.doc_ids.length := by
        refine Finset.eq_of_subset_of_card_le (fun other hother =>
          Finset.mem_range.2 (hsound.visited_lt other hother)) ?_
        rw [Finset.card_range]
        omega
      grind
    grind [Option.any_eq_true, Sound.count]

end HnswSearcher

end Laurus
