import Laurus.Analysis.Helpers.Layout

/-!
# Flattening a token graph

Below the limit of positions, `flatten_token_graph` keeps the words and moves every
node to its depth, the most steps of a path to it (`flatten_token_graph_spec`). The
depths of the nodes that start a token are without a gap, so the positions that the
result is numbered with are the depths, and a flat graph is its own.
-/

namespace Laurus

open Depth

/-- The words of tokens, each with its arc. -/
def placed (tokens : List Token) : List (Token × ℕ × ℕ) :=
  (tokens.map Token.word).zip (token_arcs tokens)

/-- **A flat graph**: the words of a graph, its nodes moved to positions. -/
structure Flattens (tokens flat : List Token) (position : ℕ → ℕ) : Prop where
  /-- A node lies at the length of a longest path to it. -/
  longest : ∀ n, IsNode (token_arcs tokens) n →
    IsGreatest {steps | Comes (ArcStep (token_arcs tokens)) steps n} (position n)
  /-- Words and arcs are those of the graph, moved. -/
  placed : (placed flat).Perm
    ((placed tokens).map fun entry => (entry.1, position entry.2.1, position entry.2.2))
  no_gap : ∀ p q, p ∈ token_positions flat → q < p → q ∈ token_positions flat
  /-- What follows on a path starts where the arc before stops, and later than it. -/
  follows : ∀ a ∈ token_arcs tokens, ∀ b ∈ token_arcs tokens, a.2 = b.1 →
    position a.2 = position b.1 ∧ position a.1 < position b.1

variable {tokens : List Token} {arcs : List (ℕ × ℕ)} {n : ℕ}

/-! ## Depths -/

/-- Where every arc spans one position, a node's depth is its number. -/
theorem depth_eq_self_of_span (h : InOrder arcs) (hspan : ∀ a ∈ arcs, a.2 = a.1 + 1)
    (hn : IsNode arcs n) : depth (ArcStep arcs) n = n := by
  induction n with
  | zero => exact depth_zero h.forward_step
  | succ n ih =>
      have hstart : IsNode arcs n := by
        obtain ⟨a, ha, hn | hn⟩ := hn
        · obtain ⟨b, hb, hn⟩ := mem_starts.1 (h.climbs.pred (hn ▸ mem_starts.2 ⟨a, ha, rfl⟩))
          exact ⟨b, hb, Or.inl hn⟩
        · have heq := hspan a ha
          exact ⟨a, ha, Or.inl (by omega)⟩
      have hle := depth_le h.forward_step (h.reached hn)
      have hlt : depth (ArcStep arcs) n < depth (ArcStep arcs) (n + 1) := by
        refine depth_lt h.forward_step (h.reached hstart) ?_
        obtain ⟨a, ha, hstop | hstop⟩ := hn
        · by_cases hsome : ∃ b ∈ arcs, b.2 = n + 1
          · obtain ⟨b, hb, hb'⟩ := hsome
            have heq := hspan b hb
            obtain rfl : b = (n, n + 1) := Prod.ext (by omega) hb'
            exact Or.inl hb
          · push Not at hsome
            exact Or.inr ⟨rfl, mem_starts.2 ⟨a, ha, hstop⟩, hsome⟩
        · have heq := hspan a ha
          obtain rfl : a = (n, n + 1) := Prod.ext (by omega) hstop
          exact Or.inl ha
      rw [ih hstart] at hlt
      omega

theorem ArcStep.mem_starts (h : InOrder arcs) {m : ℕ} (hstep : ArcStep arcs m n) :
    m ∈ arcs.map Prod.fst := by
  rcases hstep with harc | ⟨rfl, hn, -⟩
  · exact List.mem_map_of_mem harc
  · exact h.climbs.pred hn

theorem exists_depth_pred (h : InOrder arcs) {v : ℕ} (hn : IsNode arcs n)
    (hv : depth (ArcStep arcs) n = v + 1) : ∃ m ∈ arcs.map Prod.fst,
      depth (ArcStep arcs) m = v ∧ ArcStep arcs m n := by
  have hne : n ≠ 0 := by
    rintro rfl
    rw [depth_zero h.forward_step] at hv
    omega
  obtain ⟨m, hstep, -, heq⟩ := exists_step h.forward_step (h.reached hn) hne
  exact ⟨m, hstep.mem_starts h, by omega, hstep⟩

/-! ## Sorted entries -/

/-- The tokens laid out, in the order of where they start. -/
def sorted_entries (tokens : List Token) : List LaidOut := sort_by_start (laid_out tokens)

theorem sorted_perm (tokens : List Token) : (sorted_entries tokens).Perm (laid_out tokens) :=
  List.perm_insertionSort _ _

theorem mem_sorted_entries (h : InOrder (token_arcs tokens)) {e : LaidOut}
    (he : e ∈ sorted_entries tokens) :
    ∃ a ∈ token_arcs tokens, e.start = depth (ArcStep (token_arcs tokens)) a.1 ∧
      e.stop = depth (ArcStep (token_arcs tokens)) a.2 := by
  have hmem := (sorted_perm tokens).mem_iff.1 he
  rw [laid_out_eq h] at hmem
  obtain ⟨entry, hentry, rfl⟩ := List.mem_map.1 hmem
  exact ⟨entry.2, (List.of_mem_zip hentry).2, rfl, rfl⟩

theorem exists_sorted_entry (h : InOrder (token_arcs tokens)) {a : ℕ × ℕ}
    (ha : a ∈ token_arcs tokens) :
    ∃ e ∈ sorted_entries tokens, e.start = depth (ArcStep (token_arcs tokens)) a.1 ∧
      e.stop = depth (ArcStep (token_arcs tokens)) a.2 := by
  have hmem : a ∈ (tokens.zip (token_arcs tokens)).map Prod.snd := by
    rw [List.map_snd_zip (Nat.le_of_eq (length_token_arcs tokens))]
    exact ha
  obtain ⟨entry, hentry, rfl⟩ := List.mem_map.1 hmem
  refine ⟨⟨entry.1, depth (ArcStep (token_arcs tokens)) entry.2.1,
    depth (ArcStep (token_arcs tokens)) entry.2.2⟩, (sorted_perm tokens).mem_iff.2 ?_, rfl, rfl⟩
  rw [laid_out_eq h]
  grind

theorem entry_forward (h : InOrder (token_arcs tokens)) {e : LaidOut}
    (he : e ∈ sorted_entries tokens) :
    e.start < e.stop := by
  obtain ⟨a, ha, hstart, hstop⟩ := mem_sorted_entries h he
  rw [hstart, hstop]
  exact depth_lt h.forward_step (h.reached_from ha) (Or.inl ha)

theorem entry_max (h : InOrder (token_arcs tokens)) {e : LaidOut}
    (he : e ∈ sorted_entries tokens) :
    e.stop ≤ MAX_POSITION := by
  obtain ⟨a, ha, -, hstop⟩ := mem_sorted_entries h he
  rw [hstop]
  exact (depth_le h.forward_step (h.reached ⟨a, ha, Or.inr rfl⟩)).trans
    (h.max a ha)

/-- **Where entries start climbs from 0.** -/
theorem climbs_sorted_entries (h : InOrder (token_arcs tokens)) :
    Climbs none ((sorted_entries tokens).map fun e => e.start) := by
  refine climbs_of_sorted ?_ fun v hv => ?_
  · exact List.pairwise_map.2 (List.pairwise_insertionSort _ _)
  · obtain ⟨e, he, hstart⟩ := List.mem_map.1 hv
    obtain ⟨a, ha, hdepth, -⟩ := mem_sorted_entries h he
    obtain ⟨m, hm, hv, -⟩ := exists_depth_pred h ⟨a, ha, Or.inl rfl⟩
      (hdepth.symm.trans hstart)
    grind [exists_sorted_entry]

theorem ranks_id (previous : Option ℕ) (entries : List LaidOut) : Ranks id previous entries :=
  fun _ _ _ _ h => h

theorem token_arcs_sorted (h : Below tokens) :
    token_arcs (renumber_from id none (sorted_entries tokens)) =
      (sorted_entries tokens).map fun e => (e.start, e.stop) :=
  token_arcs_renumber (ranks_id _ _) (climbs_sorted_entries h.in_order)
    (fun _ he => entry_forward h.in_order he) fun _ he => entry_max h.in_order he

theorem placed_sorted (h : Below tokens) :
    placed (renumber_from id none (sorted_entries tokens)) =
      (sorted_entries tokens).map fun e => (e.token.word, e.start, e.stop) := by
  rw [placed, map_word_renumber, token_arcs_sorted h, List.zip_map']

/-! ## Flat graphs -/

theorem depth_follows (h : Below tokens) {a b : ℕ × ℕ} (ha : a ∈ token_arcs tokens)
    (hab : a.2 = b.1) : depth (ArcStep (token_arcs tokens)) a.2 =
        depth (ArcStep (token_arcs tokens)) b.1 ∧
      depth (ArcStep (token_arcs tokens)) a.1 < depth (ArcStep (token_arcs tokens)) b.1 := by
  rw [← hab]
  exact ⟨rfl, depth_lt h.in_order.forward_step (h.in_order.reached_from ha) (Or.inl ha)⟩

theorem flattens_of_span (h : Below tokens)
    (hspan : ∀ a ∈ token_arcs tokens, a.2 = a.1 + 1) :
    Flattens tokens tokens (depth (ArcStep (token_arcs tokens))) where
  longest n hn := isGreatest_depth h.in_order.forward_step (h.in_order.reached hn)
  placed := by
    have hself : ∀ n, IsNode (token_arcs tokens) n → depth (ArcStep (token_arcs tokens)) n = n :=
      fun n hn => depth_eq_self_of_span h.in_order hspan hn
    refine List.Perm.of_eq ((List.map_id _).symm.trans ?_)
    refine List.map_congr_left fun entry hentry => ?_
    have ha : entry.2 ∈ token_arcs tokens := (List.of_mem_zip hentry).2
    rw [hself _ ⟨_, ha, Or.inl rfl⟩, hself _ ⟨_, ha, Or.inr rfl⟩]
    rfl
  no_gap _ _ := (climbs_token_positions tokens).no_gap
  follows _ ha _ _ hab := depth_follows h ha hab

theorem flattens_sorted (h : Below tokens) :
    Flattens tokens (renumber_from id none (sorted_entries tokens))
      (depth (ArcStep (token_arcs tokens))) where
  longest n hn := isGreatest_depth h.in_order.forward_step (h.in_order.reached hn)
  placed := by
    rw [placed_sorted h]
    refine ((sorted_perm tokens).map _).trans (List.Perm.of_eq ?_)
    rw [laid_out_eq h.in_order, Laurus.placed, List.map_map, List.zip_map_left, List.map_map]
    rfl
  no_gap _ _ := (climbs_token_positions _).no_gap
  follows _ ha _ _ hab := depth_follows h ha hab

/-! ## Flat graphs again -/

theorem below_sorted (h : Below tokens) :
    Below (renumber_from id none (sorted_entries tokens)) := by
  intro entry hentry
  have hpositions : token_positions (renumber_from id none (sorted_entries tokens)) =
      (sorted_entries tokens).map fun e => e.start :=
    @positions_renumber none id (sorted_entries tokens) (ranks_id _ _)
      (climbs_sorted_entries h.in_order) fun e he =>
        (entry_forward h.in_order he).le.trans (entry_max h.in_order he)
  have hmem : (entry.1.position_length, entry.2) ∈
      ((sorted_entries tokens).map fun e => (e.stop - e.start, e.start)) := by
    rw [← List.zip_map', ← hpositions]
    have hlengths := @map_length_renumber none id (sorted_entries tokens)
    simp only [id] at hlengths
    rw [← hlengths, List.zip_map_left]
    exact List.mem_map_of_mem hentry
  obtain ⟨e, he, heq⟩ := List.mem_map.1 hmem
  have hlt := entry_forward h.in_order he
  have hle := entry_max h.in_order he
  grind

/-- **In a flat graph nodes are at their depths.** -/
theorem depth_flat (h : Below tokens)
    (hn : IsNode (token_arcs (renumber_from id none (sorted_entries tokens))) n) :
    depth (ArcStep (token_arcs (renumber_from id none (sorted_entries tokens)))) n = n := by
  have horder := h.in_order
  have horder' := (below_sorted h).in_order
  have hmem : ∀ {b : ℕ × ℕ}, b ∈ token_arcs (renumber_from id none (sorted_entries tokens)) ↔
      ∃ a ∈ token_arcs tokens, b = (depth (ArcStep (token_arcs tokens)) a.1,
        depth (ArcStep (token_arcs tokens)) a.2) := by
    grind [token_arcs_sorted, mem_sorted_entries, exists_sorted_entry]
  generalize token_arcs (renumber_from id none (sorted_entries tokens)) = flat at *
  induction n with
  | zero => exact depth_zero horder'.forward_step
  | succ v ih =>
      -- A node of the graph at this depth, and the one that steps to it.
      obtain ⟨x, hx, hdepth⟩ : ∃ x, IsNode (token_arcs tokens) x ∧
          depth (ArcStep (token_arcs tokens)) x = v + 1 := by
        obtain ⟨b, hb, hv⟩ := hn
        obtain ⟨a, ha, rfl⟩ := hmem.1 hb
        rcases hv with hv | hv
        · exact ⟨a.1, ⟨a, ha, Or.inl rfl⟩, hv⟩
        · exact ⟨a.2, ⟨a, ha, Or.inr rfl⟩, hv⟩
      obtain ⟨m, hm, hv, hstep⟩ := exists_depth_pred horder hx hdepth
      have hstart : IsNode flat v := by
        obtain ⟨a, ha, rfl⟩ := mem_starts.1 hm
        exact ⟨_, hmem.2 ⟨a, ha, rfl⟩, Or.inl hv⟩
      have hstep' : ArcStep flat v (v + 1) := by
        by_cases hsome : ∃ b ∈ flat, b.2 = v + 1
        · obtain ⟨b, hb, hstop⟩ := hsome
          obtain ⟨a, ha, rfl⟩ := hmem.1 hb
          obtain ⟨m', -, hv', hstep'⟩ := exists_depth_pred horder ⟨a, ha, Or.inr rfl⟩ hstop
          rcases hstep' with harc | ⟨-, -, hnone⟩
          · exact Or.inl (hmem.2 ⟨(m', a.2), harc, Prod.ext hv'.symm hstop.symm⟩)
          · exact absurd rfl (hnone a ha)
        · push Not at hsome
          obtain ⟨b, hb, hb' | hb'⟩ := hn
          · exact Or.inr ⟨rfl, mem_starts.2 ⟨b, hb, hb'⟩, hsome⟩
          · exact absurd hb' (hsome b hb)
      have hle := depth_le horder'.forward_step (horder'.reached hn)
      have hlt := depth_lt horder'.forward_step (horder'.reached hstart) hstep'
      rw [ih hstart] at hlt
      omega

theorem renumber_again (previous : Option ℕ) (entries : List LaidOut) :
    renumber_from id previous (((renumber_from id previous entries).zip
      (entries.map fun e => (e.start, e.stop))).map fun entry =>
        ⟨entry.1, entry.2.1, entry.2.2⟩) = renumber_from id previous entries := by
  induction entries generalizing previous with
  | nil => rfl
  | cons entry entries ih =>
      rw [renumber_from, List.map_cons, List.zip_cons_cons, List.map_cons, renumber_from, ih]
      rcases previous with _ | q
      · rfl
      · rfl

theorem map_start_entries (entries : List LaidOut) (previous : Option ℕ) :
    (((renumber_from id previous entries).zip (entries.map fun e => (e.start, e.stop))).map
      fun entry => (⟨entry.1, entry.2.1, entry.2.2⟩ : LaidOut)).map (fun e => e.start) =
        entries.map fun e => e.start := by
  induction entries generalizing previous with
  | nil => rfl
  | cons entry entries ih =>
      grind [renumber_from]

/-- **A flat graph is laid out as it is.** -/
theorem flatten_renumbered (h : Below tokens) :
    flatten_token_graph (renumber_from id none (sorted_entries tokens)) =
      renumber_from id none (sorted_entries tokens) := by
  rw [flatten_token_graph]
  split
  · rfl
  · have hlaid : laid_out (renumber_from id none (sorted_entries tokens)) =
        ((renumber_from id none (sorted_entries tokens)).zip
          ((sorted_entries tokens).map fun e => (e.start, e.stop))).map
            fun entry => ⟨entry.1, entry.2.1, entry.2.2⟩ := by
      rw [laid_out_eq (below_sorted h).in_order, ← token_arcs_sorted h]
      refine List.map_congr_left fun entry hentry => ?_
      have ha := (List.of_mem_zip hentry).2
      rw [depth_flat h ⟨_, ha, Or.inl rfl⟩, depth_flat h ⟨_, ha, Or.inr rfl⟩]
    have hsorted : sort_by_start (laid_out (renumber_from id none (sorted_entries tokens))) =
        laid_out (renumber_from id none (sorted_entries tokens)) := by
      refine List.Pairwise.insertionSort_eq ?_
      have hclimbs := (climbs_sorted_entries h.in_order).sorted
      grind [map_start_entries]
    rw [hsorted, hlaid, renumber_again]

/-- **Flattening a token graph**: below the limit of positions every node is moved to the
length of a longest path to it, and flattening again changes nothing. -/
theorem flatten_token_graph_spec (h : Below tokens) :
    (∃ position, Flattens tokens (flatten_token_graph tokens) position) ∧
      flatten_token_graph (flatten_token_graph tokens) = flatten_token_graph tokens := by
  by_cases hspan : (tokens.all fun token => token.position_length ≤ 1) = true
  · have hflat : flatten_token_graph tokens = tokens := if_pos hspan
    rw [hflat, hflat]
    refine ⟨⟨_, flattens_of_span h fun a ha => ?_⟩, rfl⟩
    obtain ⟨entry, hentry, rfl⟩ := List.mem_map.1 ha
    have hone := List.all_eq_true.1 hspan entry.1 (List.of_mem_zip hentry).1
    rw [decide_eq_true_iff] at hone
    rw [h.arc_eq hentry, Nat.max_eq_right hone]
  · have hflat : flatten_token_graph tokens = renumber_from id none (sorted_entries tokens) :=
      if_neg hspan
    rw [hflat]
    exact ⟨⟨_, flattens_sorted h⟩, flatten_renumbered h⟩

/-- One word beside two others. -/
theorem flatten_token_graph_beside :
    let tokens : List Token := [⟨"ml", 0, 0, 0, false, none, 1, 2⟩,
      ⟨"machine", 0, 0, 0, false, none, 0, 1⟩, ⟨"learning", 1, 0, 0, false, none, 1, 1⟩]
    (∃ position, Flattens tokens (flatten_token_graph tokens) position) ∧
      flatten_token_graph (flatten_token_graph tokens) = flatten_token_graph tokens :=
  flatten_token_graph_spec (by unfold Below; decide)

end Laurus
