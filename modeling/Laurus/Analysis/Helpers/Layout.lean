import Laurus.Analysis.Model.Token
import Laurus.Common.ArcPath

/-!
# Where nodes are laid out

A step of a path goes along an arc, or to a node that starts a token and that no
arc reaches, from the node before. The loop of `flatten_token_graph` comes to each
arc after all that reach the node it starts at, so it lays every node at its depth
(`laid_out_eq`).
-/

namespace Laurus

section Positions

/-!
## The positions of tokens

Positions climb from 0 by steps of 0 or 1 (`climbs_token_positions`), so none is
left out below one that is there. Tokens that are renumbered get the positions
they start at, where those climb (`positions_renumber`).
-/

/-- Positions climb by steps of 0 or 1, after one that is given or from 0. -/
def Climbs : Option ℕ → List ℕ → Prop
  | _, [] => True
  | none, p :: ps => p = 0 ∧ Climbs (some p) ps
  | some q, p :: ps => (p = q ∨ p = q + 1) ∧ Climbs (some p) ps

variable {q n : ℕ} {ps : List ℕ} {previous : Option ℕ} {tokens : List Token}

theorem climbs_none_cons {p : ℕ} : Climbs none (p :: ps) ↔ p = 0 ∧ Climbs (some p) ps := Iff.rfl

theorem climbs_some_cons {p : ℕ} :
    Climbs (some q) (p :: ps) ↔ (p = q ∨ p = q + 1) ∧ Climbs (some p) ps := Iff.rfl

theorem Climbs.le (h : Climbs (some q) ps) : ∀ p ∈ ps, q ≤ p := by
  induction ps generalizing q with
  | nil => exact fun p hp => absurd hp List.not_mem_nil
  | cons p ps ih =>
      obtain ⟨hp, h⟩ := climbs_some_cons.1 h
      grind

theorem Climbs.front {qs : List ℕ} (h : Climbs previous (ps ++ qs)) : Climbs previous ps := by
  induction ps generalizing previous with
  | nil => rcases previous with _ | q <;> trivial
  | cons p ps ih =>
      rcases previous with _ | q
      · exact ⟨h.1, ih h.2⟩
      · exact ⟨h.1, ih h.2⟩

theorem Climbs.sorted_some (h : Climbs (some q) ps) : ps.Pairwise (· ≤ ·) := by
  induction ps generalizing q with
  | nil => exact List.Pairwise.nil
  | cons p ps ih => exact List.Pairwise.cons h.2.le (ih h.2)

theorem Climbs.sorted (h : Climbs none ps) : ps.Pairwise (· ≤ ·) := by
  rcases ps with _ | ⟨p, ps⟩
  · exact List.Pairwise.nil
  · exact List.Pairwise.cons h.2.le h.2.sorted_some

theorem Climbs.pred_some (h : Climbs (some q) ps) (hn : n + 1 ∈ ps) (hq : q ≤ n) :
    n = q ∨ n ∈ ps := by
  induction ps generalizing q with
  | nil => exact absurd hn List.not_mem_nil
  | cons p ps ih =>
      grind [climbs_some_cons]

/-- **No position is left out.** -/
theorem Climbs.pred (h : Climbs none ps) (hn : n + 1 ∈ ps) : n ∈ ps := by
  rcases ps with _ | ⟨p, ps⟩
  · exact absurd hn List.not_mem_nil
  · obtain ⟨rfl, h⟩ := climbs_none_cons.1 h
    rcases List.mem_cons.1 hn with hn | hn
    · omega
    · exact (h.pred_some hn (Nat.zero_le n)).elim (fun h => by rw [h]; exact List.mem_cons_self)
        (List.mem_cons_of_mem _)

theorem Climbs.no_gap {p : ℕ} (h : Climbs none ps) (hp : p ∈ ps) (hq : q < p) : q ∈ ps := by
  induction p with
  | zero => omega
  | succ p ih =>
      grind [pred]

theorem climbs_some_of_sorted (hsorted : (q :: ps).Pairwise (· ≤ ·))
    (hpred : ∀ n, n + 1 ∈ ps → n ≤ q ∨ n ∈ ps) : Climbs (some q) ps := by
  induction ps generalizing q with
  | nil => trivial
  | cons p ps ih =>
      obtain ⟨hq, hsorted⟩ := List.pairwise_cons.1 hsorted
      have hp : ∀ n ∈ ps, p ≤ n := fun n hn => List.rel_of_pairwise_cons hsorted hn
      have hqp := hq p List.mem_cons_self
      refine ⟨?_, ih hsorted fun n hn => ?_⟩
      · rcases p with _ | p
        · omega
        grind
      grind

theorem climbs_of_sorted (hsorted : ps.Pairwise (· ≤ ·)) (hpred : ∀ n, n + 1 ∈ ps → n ∈ ps) :
    Climbs none ps := by
  rcases ps with _ | ⟨p, ps⟩
  · trivial
  · have hzero : p = 0 := by
      rcases p with _ | p
      · rfl
      grind [List.mem_cons_self, List.rel_of_pairwise_cons]
    refine ⟨hzero, climbs_some_of_sorted hsorted fun n hn => ?_⟩
    grind

/-! ## Tokens -/

theorem climbs_positions_from (tokens : List Token)
    (hprevious : ∀ q, previous = some q → q ≤ MAX_POSITION) :
    Climbs previous (positions_from previous tokens) := by
  induction tokens generalizing previous with
  | nil => trivial
  | cons token tokens ih =>
      rcases previous with _ | q
      · refine ⟨rfl, ih fun q hq => ?_⟩
        rw [← Option.some.inj hq]
        exact Nat.zero_le _
      · have hq := hprevious q rfl
        have hassign : assign (some q) token = q ∨
            assign (some q) token = q + 1 ∧ q + 1 ≤ MAX_POSITION := by
          rw [assign, u32_saturating_add]
          grind
        refine ⟨hassign.imp_right And.left, ih fun p hp => ?_⟩
        grind

/-- **Positions climb from 0.** -/
theorem climbs_token_positions (tokens : List Token) : Climbs none (token_positions tokens) :=
  climbs_positions_from tokens fun _ h => absurd h.symm (Option.some_ne_none _)

theorem length_positions_from (tokens : List Token) (previous : Option ℕ) :
    (positions_from previous tokens).length = tokens.length := by
  induction tokens generalizing previous with
  | nil => rfl
  | cons token tokens ih => rw [positions_from, List.length_cons, ih, List.length_cons]

theorem length_token_arcs (tokens : List Token) : (token_arcs tokens).length = tokens.length := by
  rw [token_arcs, List.length_map, List.length_zip, token_positions, length_positions_from,
    Nat.min_self]

theorem map_fst_token_arcs (tokens : List Token) :
    (token_arcs tokens).map Prod.fst = token_positions tokens := by
  rw [token_arcs, List.map_map]
  exact List.map_snd_zip (Nat.le_of_eq (length_positions_from tokens none))

/-! ## Renumbering -/

/-- A token less its place in the graph. -/
def Token.word (token : Token) : Token :=
  { token with position_increment := 0, position_length := 0 }

/-- Where a node has the rank of one that starts a token, it is that one. -/
def Ranks (rank : ℕ → ℕ) (previous : Option ℕ) (entries : List LaidOut) : Prop :=
  ∀ e ∈ entries, ∀ s, (previous = some s ∨ ∃ e' ∈ entries, e'.start = s) →
    rank s = rank e.start → s = e.start

variable {rank : ℕ → ℕ} {entries : List LaidOut}

theorem Ranks.tail {entry : LaidOut} (h : Ranks rank previous (entry :: entries)) :
    Ranks rank (some entry.start) entries := by
  intro e he s hs
  refine h e (List.mem_cons_of_mem _ he) s (Or.inr ?_)
  grind

theorem positions_renumber (hranks : Ranks rank previous entries)
    (hclimbs : Climbs (previous.map rank) (entries.map fun e => rank e.start))
    (hmax : ∀ e ∈ entries, rank e.start ≤ MAX_POSITION) :
    positions_from (previous.map rank) (renumber_from rank previous entries) =
      entries.map fun e => rank e.start := by
  induction entries generalizing previous with
  | nil => rfl
  | cons entry entries ih =>
      have hstart : ∀ token : Token,
          token.position_increment = increment previous entry.start entry.token →
            assign (previous.map rank) token = rank entry.start := by
        intro token htoken
        have hle := hmax entry List.mem_cons_self
        rcases previous with _ | q
        · exact hclimbs.1.symm
        · have hor : rank entry.start = rank q ∨ rank entry.start = rank q + 1 := hclimbs.1
          rcases hor with heq | heq
          · have hq := hranks entry List.mem_cons_self q (Or.inl rfl) heq.symm
            have hstacked : increment (some q) entry.start entry.token = 0 := if_pos hq
            rw [Option.map_some, assign, htoken, hstacked, if_pos rfl, heq]
          · have hnext : increment (some q) entry.start entry.token = 1 :=
              if_neg fun hq => by rw [hq] at heq; omega
            rw [Option.map_some, assign, htoken, hnext, if_neg Nat.one_ne_zero, u32_saturating_add]
            omega
      have hrest : Climbs ((some entry.start).map rank) (entries.map fun e => rank e.start) := by
        rcases previous with _ | q
        · exact hclimbs.2
        · exact hclimbs.2
      rw [renumber_from, positions_from, hstart _ rfl, List.map_cons]
      exact congrArg _ (ih hranks.tail hrest fun e he => hmax e (List.mem_cons_of_mem _ he))

theorem map_word_renumber (entries : List LaidOut) :
    (renumber_from rank previous entries).map Token.word =
      entries.map fun e => e.token.word := by
  induction entries generalizing previous with
  | nil => rfl
  | cons entry entries ih => rw [renumber_from, List.map_cons, ih, List.map_cons]; rfl

theorem map_length_renumber (entries : List LaidOut) :
    (renumber_from rank previous entries).map (fun token => token.position_length) =
      entries.map fun e => rank e.stop - rank e.start := by
  induction entries generalizing previous with
  | nil => rfl
  | cons entry entries ih => rw [renumber_from, List.map_cons, ih, List.map_cons]

theorem token_arcs_eq (tokens : List Token) : token_arcs tokens =
    ((tokens.map fun token => token.position_length).zip (token_positions tokens)).map
      fun entry => (entry.2, u32_saturating_add entry.2 (min (max entry.1 1) MAX_POSITION)) := by
  rw [token_arcs, List.zip_map_left, List.map_map]
  rfl

/-- **The arcs of renumbered tokens.** -/
theorem token_arcs_renumber (hranks : Ranks rank none entries)
    (hclimbs : Climbs none (entries.map fun e => rank e.start))
    (hforward : ∀ e ∈ entries, rank e.start < rank e.stop)
    (hmax : ∀ e ∈ entries, rank e.stop ≤ MAX_POSITION) :
    token_arcs (renumber_from rank none entries) =
      entries.map fun e => (rank e.start, rank e.stop) := by
  have hpositions : token_positions (renumber_from rank none entries) =
      entries.map fun e => rank e.start :=
    positions_renumber hranks hclimbs fun e he => (hforward e he).le.trans (hmax e he)
  rw [token_arcs_eq, hpositions, map_length_renumber, List.zip_map', List.map_map]
  refine List.map_congr_left fun e he => ?_
  have hlt := hforward e he
  have hle := hmax e he
  rw [Function.comp_apply, u32_saturating_add]
  congr 1
  omega

end Positions

section Layout

open Depth

/-- A step of a path through a token graph. -/
def ArcStep (arcs : List (ℕ × ℕ)) (m n : ℕ) : Prop :=
  (m, n) ∈ arcs ∨ n = m + 1 ∧ n ∈ arcs.map Prod.fst ∧ ∀ a ∈ arcs, a.2 ≠ n

/-- Arcs in the order of the nodes they start at, which are numbered from 0 on; all
go forward and stay below the limit. -/
structure InOrder (arcs : List (ℕ × ℕ)) : Prop where
  climbs : Climbs none (arcs.map Prod.fst)
  forward : ∀ a ∈ arcs, a.1 < a.2
  max : ∀ a ∈ arcs, a.2 ≤ MAX_POSITION

/-- A node of a token graph. -/
def IsNode (arcs : List (ℕ × ℕ)) (n : ℕ) : Prop := ∃ a ∈ arcs, a.1 = n ∨ a.2 = n

variable {arcs done rest : List (ℕ × ℕ)} {a b : ℕ × ℕ} {n : ℕ} {layout : Layout}

theorem mem_starts : n ∈ arcs.map Prod.fst ↔ ∃ a ∈ arcs, a.1 = n := List.mem_map

theorem InOrder.forward_step (h : InOrder arcs) : Forward (ArcStep arcs) := by
  rintro m n (hmn | ⟨rfl, -⟩)
  · exact h.forward _ hmn
  · exact Nat.lt_succ_self m

theorem InOrder.reached_start (h : InOrder arcs) (hn : n ∈ arcs.map Prod.fst) :
    Reached (ArcStep arcs) n := by
  induction n using Nat.strong_induction_on with
  | _ n ih =>
      rcases n with _ | n
      · exact Reached.start
      · by_cases hsome : ∃ a ∈ arcs, a.2 = n + 1
        · obtain ⟨a, ha, hstop⟩ := hsome
          have hlt := h.forward a ha
          refine (ih a.1 (by omega) (mem_starts.2 ⟨a, ha, rfl⟩)).step (Or.inl ?_)
          rw [← hstop]
          exact ha
        · push Not at hsome
          exact (ih n (Nat.lt_succ_self n) (h.climbs.pred hn)).step (Or.inr ⟨rfl, hn, hsome⟩)

theorem InOrder.reached (h : InOrder arcs) (hn : IsNode arcs n) : Reached (ArcStep arcs) n := by
  obtain ⟨a, ha, rfl | rfl⟩ := hn
  · exact h.reached_start (mem_starts.2 ⟨a, ha, rfl⟩)
  · exact (h.reached_start (mem_starts.2 ⟨a, ha, rfl⟩)).step (Or.inl ha)

theorem InOrder.reached_from (h : InOrder arcs) (ha : a ∈ arcs) :
    Reached (ArcStep arcs) a.1 := h.reached ⟨a, ha, Or.inl rfl⟩

/-- The depth of a node is no more than its number, and one more stays below the
limit where a token starts. -/
theorem InOrder.depth_lt_max (h : InOrder arcs) (ha : a ∈ arcs) :
    depth (ArcStep arcs) a.1 + 1 ≤ MAX_POSITION := by
  grind [depth_le, forward_step, reached_from, forward, max]

theorem InOrder.mem_done (h : InOrder (done ++ a :: rest)) (hb : b ∈ done ++ a :: rest)
    (hstop : b.2 = a.1) : b ∈ done := by
  rcases List.mem_append.1 hb with hb' | hb'
  · exact hb'
  · have hforward := h.forward b hb
    have hsorted := h.climbs.sorted
    grind [List.rel_of_pairwise_cons]

theorem Climbs.adjacent {previous : Option ℕ} {before after : List ℕ} {p q : ℕ}
    (h : Climbs previous (before ++ p :: q :: after)) : q = p ∨ q = p + 1 := by
  induction before generalizing previous with
  | nil =>
      rcases previous with _ | r
      · exact h.2.1
      · exact h.2.1
  | cons r before ih =>
      rcases previous with _ | r'
      · exact ih h.2
      · exact ih h.2

/-! ## The loop -/

/-- What the loop has after some arcs. -/
structure Lays (arcs done : List (ℕ × ℕ)) (layout : Layout) : Prop where
  none_reached : ∀ n, layout.reached.lookup n = none → ∀ b ∈ done, b.2 ≠ n
  reached : ∀ n v, layout.reached.lookup n = some v →
    (∀ b ∈ done, b.2 = n → depth (ArcStep arcs) b.1 + 1 ≤ v) ∧
      ∃ b ∈ done, b.2 = n ∧ v = depth (ArcStep arcs) b.1 + 1
  previous : layout.previous = done.getLast?.map fun b => (b.1, depth (ArcStep arcs) b.1)
  arcs : layout.arcs = done.map fun b => (depth (ArcStep arcs) b.1, b.2)

theorem Lays.depth_eq (h : Lays arcs done layout) (horder : InOrder arcs)
    (hdone : ∀ b ∈ arcs, b.2 = n → b ∈ done) (hsub : ∀ b ∈ done, b ∈ arcs) {v : ℕ}
    (hv : layout.reached.lookup n = some v) : depth (ArcStep arcs) n = v := by
  obtain ⟨hall, b, hb, hstop, heq⟩ := h.reached n v hv
  refine Depth.depth_eq horder.forward_step (fun m hstep _ => ?_)
    ⟨b.1, Or.inl (by rw [← hstop]; exact hsub b hb), horder.reached_from (hsub b hb), heq.le⟩
  rcases hstep with harc | ⟨-, -, hnone⟩
  · exact hall (m, n) (hdone _ harc rfl) rfl
  grind

/-- **A node is laid at its depth** when the loop comes to it. -/
theorem Lays.position_eq (h : Lays (done ++ a :: rest) done layout)
    (horder : InOrder (done ++ a :: rest)) :
    layout.position a.1 = depth (ArcStep (done ++ a :: rest)) a.1 := by
  have ha : a ∈ done ++ a :: rest := by simp
  have hsub : ∀ b ∈ done, b ∈ done ++ a :: rest := fun b hb => List.mem_append_left _ hb
  have hclimbs := horder.climbs
  rw [Layout.position, h.previous]
  rcases List.eq_nil_or_concat' done with rfl | ⟨before, b, rfl⟩
  · rw [List.nil_append, List.map_cons] at hclimbs
    rw [hclimbs.1]
    exact (depth_zero horder.forward_step).symm
  · have hadjacent : a.1 = b.1 ∨ a.1 = b.1 + 1 := by
      grind [Climbs.adjacent]
    rw [List.getLast?_concat, Option.map_some]
    dsimp only
    by_cases hsame : b.1 = a.1
    · rw [if_pos hsame, hsame]
    · rw [if_neg hsame]
      rcases hlookup : layout.reached.lookup a.1 with _ | v
      · have hnone : ∀ c ∈ before ++ [b] ++ a :: rest, c.2 ≠ a.1 := fun c hc hstop =>
          h.none_reached a.1 hlookup c (horder.mem_done hc hstop) hstop
        have hnext : a.1 = b.1 + 1 := hadjacent.resolve_left fun h => hsame h.symm
        have hb : b ∈ before ++ [b] ++ a :: rest := hsub b (by simp)
        rw [Option.getD_none, u32_saturating_add, Nat.min_eq_left (horder.depth_lt_max hb)]
        refine (Depth.depth_eq horder.forward_step (fun m hstep _ => ?_) ⟨b.1, Or.inr ⟨hnext,
          mem_starts.2 ⟨a, ha, rfl⟩, hnone⟩, horder.reached_from hb, Nat.le_refl _⟩).symm
        rcases hstep with harc | ⟨hm, -⟩
        · exact absurd rfl (hnone _ harc)
        grind
      · exact (h.depth_eq horder (fun c hc hstop => horder.mem_done hc hstop) hsub hlookup).symm

theorem Lays.step (h : Lays (done ++ a :: rest) done layout)
    (horder : InOrder (done ++ a :: rest)) :
    Lays (done ++ a :: rest) (done ++ [a]) (layout.step a) := by
  have ha : a ∈ done ++ a :: rest := by simp
  have hposition := h.position_eq horder
  have hsum : u32_saturating_add (layout.position a.1) 1 =
      depth (ArcStep (done ++ a :: rest)) a.1 + 1 := by
    rw [hposition, u32_saturating_add, Nat.min_eq_left (horder.depth_lt_max ha)]
  refine ⟨fun n hnone b hb => ?_, fun n v hv => ?_, ?_, ?_⟩
  · rw [Layout.step] at hnone
    by_cases hn : n = a.2
    · rw [hn, AList.lookup_insert] at hnone
      exact absurd hnone (Option.some_ne_none _)
    grind [AList.lookup_insert_ne, none_reached]
  · rw [Layout.step] at hv
    by_cases hn : n = a.2
    · rw [hn, AList.lookup_insert, hsum] at hv
      obtain rfl := Option.some.inj hv
      subst hn
      constructor
      · intro b hb hstop
        rcases List.mem_append.1 hb with hb | hb
        · rcases hlookup : layout.reached.lookup a.2 with _ | w
          · exact absurd hstop (h.none_reached a.2 hlookup b hb)
          grind [reached]
        grind
      · by_cases hle : (layout.reached.lookup a.2).getD 0 ≤
            depth (ArcStep (done ++ a :: rest)) a.1 + 1
        · grind
        · rcases hlookup : layout.reached.lookup a.2 with _ | w
          · simp
          · rw [hlookup] at hle
            obtain ⟨-, b, hb, hstop, heq⟩ := h.reached a.2 w hlookup
            grind
    · rw [AList.lookup_insert_ne hn] at hv
      obtain ⟨hall, b, hb, hstop, heq⟩ := h.reached n v hv
      grind
  · rw [Layout.step, List.getLast?_concat, Option.map_some, hposition]
  · rw [Layout.step, h.arcs, List.map_append, hposition]
    rfl

theorem lays_run (horder : InOrder arcs) : ∀ done rest, arcs = done ++ rest →
    Lays arcs done (Layout.run done) := by
  intro done
  induction done using List.reverseRecOn with
  | nil =>
      exact fun _ _ => ⟨fun _ _ b hb => absurd hb List.not_mem_nil,
        fun n v hv => absurd hv.symm (Option.some_ne_none _), rfl, rfl⟩
  | append_singleton done a ih =>
      intro rest harcs
      rw [List.append_assoc, List.singleton_append] at harcs
      have hlays := ih (a :: rest) harcs
      subst harcs
      rw [Layout.run, List.foldl_concat]
      exact hlays.step horder

/-! ## Tokens -/

/-- The positions of tokens stay below the limit. -/
def Below (tokens : List Token) : Prop :=
  ∀ entry ∈ tokens.zip (token_positions tokens),
    entry.2 + max entry.1.position_length 1 ≤ MAX_POSITION

variable {tokens : List Token}

theorem Below.arc_eq (h : Below tokens) {entry : Token × ℕ}
    (hentry : entry ∈ tokens.zip (token_positions tokens)) :
    u32_saturating_add entry.2 entry.1.span = entry.2 + max entry.1.position_length 1 := by
  have hle := h entry hentry
  rw [u32_saturating_add, Token.span]
  omega

theorem Below.in_order (h : Below tokens) : InOrder (token_arcs tokens) := by
  refine ⟨?_, fun a ha => ?_, fun a ha => ?_⟩
  · rw [map_fst_token_arcs]
    exact climbs_token_positions tokens
  · obtain ⟨entry, hentry, rfl⟩ := List.mem_map.1 ha
    rw [h.arc_eq hentry]
    omega
  · obtain ⟨entry, hentry, rfl⟩ := List.mem_map.1 ha
    rw [h.arc_eq hentry]
    exact h entry hentry

/-- **Tokens are laid out at the depths of their nodes.** -/
theorem laid_out_eq (h : InOrder (token_arcs tokens)) : laid_out tokens =
    (tokens.zip (token_arcs tokens)).map fun entry =>
      ⟨entry.1, depth (ArcStep (token_arcs tokens)) entry.2.1,
        depth (ArcStep (token_arcs tokens)) entry.2.2⟩ := by
  have hlays := lays_run h (token_arcs tokens) [] (List.append_nil _).symm
  rw [laid_out, hlays.arcs, List.zip_map_right, List.map_map]
  refine List.map_congr_left fun entry hentry => ?_
  have hmem : entry.2 ∈ token_arcs tokens := (List.of_mem_zip hentry).2
  have hstop : ((Layout.run (token_arcs tokens)).reached.lookup entry.2.2).getD 0 =
      depth (ArcStep (token_arcs tokens)) entry.2.2 := by
    rcases hlookup : (Layout.run (token_arcs tokens)).reached.lookup entry.2.2 with _ | v
    · exact absurd rfl (hlays.none_reached _ hlookup entry.2 hmem)
    · exact (hlays.depth_eq h (fun b hb _ => hb) (fun b hb => hb) hlookup).symm
  grind

end Layout

end Laurus
