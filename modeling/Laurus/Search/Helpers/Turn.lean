import Laurus.Search.Helpers.BlockMaxOr

/-!
# What a turn does

`iterate_spec`: from a good state a turn either stops, and then no document
that remains can enter the collector, or it brings the clauses to a document
past that of one of them, and what it passes by is offered or cannot enter.
-/

namespace Laurus

variable {𝕜 σ : Type} [Field 𝕜] [LinearOrder 𝕜] {ops : MatcherOps σ} {n : ℕ}

namespace BlockMaxOrExecutor

/-- The states of the loop: the active clauses are those with documents left,
and the tables of each hold for its documents. -/
structure Good (V : MatcherView ops) (st : BmwState 𝕜 σ n) : Prop where
  inv : ∀ i, V.Inv (st.clauses i).matcher
  sound : ∀ i, (st.clauses i).scorer.Sound ((st.clauses i).rem V) (st.clauses i).term_freqs
  nodup : st.active.Nodup
  mem_active : ∀ i, i ∈ st.active ↔ ((st.clauses i).rem V).Nonempty

/-- Of the documents before `q` none can enter the collector, or there is
one and it is offered. -/
def Offered (V : MatcherView ops) (clauses : Fin n → BmwClause 𝕜 σ) (q : ℕ)
    (c c' : TopDocsCollector 𝕜) : Prop :=
  (c' = c ∧ ∀ d ∈ remaining V clauses, d < q →
    ((total V clauses d : 𝕜) : WithBot 𝕜) ≤ c.min_competitive) ∨
  ∃ d ∈ remaining V clauses, (∀ x ∈ remaining V clauses, x < q ↔ x = d) ∧
    c' = c.collect d (total V clauses d)

/-- The clauses are brought to `q`, past the document of one of them. -/
structure Moves (V : MatcherView ops) (q : ℕ) (clauses clauses' : Fin n → BmwClause 𝕜 σ) :
    Prop where
  le_end : q ≤ END
  brought : ∀ i, BmwClause.From V q (clauses i) (clauses' i)
  passes : ∃ i, ((clauses i).rem V).Nonempty ∧ (clauses i).doc_id ops < q

/-- The sorted clauses: in front of the pivot `i`, on its document, later. -/
structure Sides (V : MatcherView ops) (st : BmwState 𝕜 σ n) (front : List (Fin n)) (i : Fin n)
    (same later : List (Fin n)) : Prop where
  perm : (front ++ i :: same ++ later).Perm st.active
  sorted : (front ++ i :: same ++ later).Pairwise (doc_order ops st.clauses)
  same_eq : ∀ j ∈ same, (st.clauses j).doc_id ops = (st.clauses i).doc_id ops
  later_ne : ∀ j ∈ later.head?, (st.clauses j).doc_id ops ≠ (st.clauses i).doc_id ops
  front_low : front ≠ [] →
    (((front.map (suffix_bound ops st.clauses)).sum : 𝕜) : WithBot 𝕜) ≤ st.collector.min_competitive

namespace Sides

variable {V : MatcherView ops} {st : BmwState 𝕜 σ n} {front same later : List (Fin n)}
variable {i j : Fin n} {d : ℕ}

theorem mem_iff (h : Sides V st front i same later) :
    j ∈ st.active ↔ (j ∈ front ∨ j = i ∨ j ∈ same) ∨ j ∈ later := by
  rw [← h.perm.mem_iff, List.mem_append, List.mem_append, List.mem_cons]

theorem side_nodup (h : Sides V st front i same later) (hgood : Good V st) :
    (front ++ i :: same).Nodup :=
  (List.nodup_append.1 (h.perm.nodup_iff.2 hgood.nodup)).1

theorem side_le (h : Sides V st front i same later) (hj : j ∈ front ++ i :: same) :
    (st.clauses j).doc_id ops ≤ (st.clauses i).doc_id ops := by
  rw [List.mem_append, List.mem_cons] at hj
  rcases hj with hj | rfl | hj
  · have hsorted := (List.pairwise_append.1 (List.pairwise_append.1 h.sorted).1).2.2
    exact hsorted j hj i List.mem_cons_self
  · exact le_rfl
  · exact (h.same_eq j hj).le

theorem later_ge (h : Sides V st front i same later) (hj : j ∈ later) :
    ∃ k ∈ later.head?, (st.clauses k).doc_id ops ≤ (st.clauses j).doc_id ops := by
  have hsorted := (List.pairwise_append.1 h.sorted).2.1
  obtain ⟨k, hk⟩ : ∃ k, later.head? = some k := by
    rw [← Option.isSome_iff_exists, List.isSome_head?]
    exact List.ne_nil_of_mem hj
  refine ⟨k, hk, ?_⟩
  obtain ⟨rest, rfl⟩ := List.head?_eq_some_iff.1 hk
  rcases List.mem_cons.1 hj with rfl | hj
  · exact le_rfl
  · exact (List.pairwise_cons.1 hsorted).1 j hj

theorem lt_later_head (h : Sides V st front i same later) (hj : j ∈ later.head?) :
    (st.clauses i).doc_id ops < (st.clauses j).doc_id ops := by
  have hsorted := (List.pairwise_append.1 h.sorted).2.2
  have hle : (st.clauses i).doc_id ops ≤ (st.clauses j).doc_id ops :=
    hsorted i (by simp) j (List.mem_of_mem_head? hj)
  have hne := h.later_ne j hj
  omega

/-- Outside the pivot side the clauses are past the first later one, or ended. -/
theorem outside (h : Sides V st front i same later) (hgood : Good V st)
    (hj : j ∉ front ++ i :: same) :
    (∃ k ∈ later.head?, (st.clauses k).doc_id ops ≤ (st.clauses j).doc_id ops) ∨
      (st.clauses j).doc_id ops = END := by
  by_cases hactive : j ∈ st.active
  · refine Or.inl (h.later_ge ((h.mem_iff.1 hactive).resolve_left fun hside => hj ?_))
    grind
  · rw [hgood.mem_active, Finset.not_nonempty_iff_eq_empty] at hactive
    rw [BmwClause.doc_id_eq (hgood.inv j), hactive, first_empty]
    exact Or.inr rfl

theorem side_live (h : Sides V st front i same later) (hgood : Good V st)
    (hj : j ∈ front ++ i :: same) : ((st.clauses j).rem V).Nonempty := by
  refine (hgood.mem_active j).1 (h.mem_iff.2 (Or.inl ?_))
  grind

theorem pivot_lt_end (h : Sides V st front i same later) (hgood : Good V st) :
    (st.clauses i).doc_id ops < END :=
  BmwClause.doc_id_lt_end (hgood.inv i) (h.side_live hgood (by simp))

theorem lt_outside (h : Sides V st front i same later) (hgood : Good V st)
    (hj : j ∉ front ++ i :: same) :
    (st.clauses i).doc_id ops < (st.clauses j).doc_id ops := by
  rcases h.outside hgood hj with ⟨k, hk, hle⟩ | hend
  · exact (h.lt_later_head hk).trans_le hle
  · rw [hend]
    exact h.pivot_lt_end hgood

/-- **Before the pivot no document can enter**: only the clauses in front
may hold it. -/
theorem before_pivot [IsStrictOrderedRing 𝕜] (h : Sides V st front i same later)
    (hgood : Good V st) (hd : d ∈ remaining V st.clauses)
    (hlt : d < (st.clauses i).doc_id ops) :
    ((total V st.clauses d : 𝕜) : WithBot 𝕜) ≤ st.collector.min_competitive := by
  have hfront : ∀ j, d ∈ (st.clauses j).rem V → j ∈ front := by
    intro j hj
    have hle := BmwClause.doc_id_le (hgood.inv j) hj
    by_cases hside : j ∈ front ++ i :: same
    · grind [same_eq]
    · have := h.lt_outside hgood hside
      omega
  obtain ⟨j, hj⟩ := mem_remaining.1 hd
  have hne : front ≠ [] := List.ne_nil_of_mem (hfront j hj)
  refine le_trans (WithBot.coe_le_coe.2 ?_) (h.front_low hne)
  refine total_le_sum (List.nodup_append.1 (h.side_nodup hgood)).1
    (fun j hj hmem => hj (hfront j hmem)) (fun j _ => ?_) fun j _ hmem => ?_
  · exact (hgood.sound j).block_max_score_at_nonneg _
  · exact (hgood.sound j).score_le_block_max_score_at hmem
      (BmwClause.doc_id_le (hgood.inv j) hmem)

end Sides

/-! ## The three branches -/

section Branches

variable {V : MatcherView ops} {st : BmwState 𝕜 σ n} {front same later : List (Fin n)}
variable {i : Fin n} {q : ℕ}

theorem for_each_moves (h : Sides V st front i same later) (hgood : Good V st)
    {call : BmwClause 𝕜 σ → Option (BmwClause 𝕜 σ)}
    (hcall : ∀ j ∈ front ++ i :: same, ∃ c', call (st.clauses j) = some c' ∧
      BmwClause.From V q (st.clauses j) c')
    (hout : ∀ j, j ∉ front ++ i :: same → q ≤ (st.clauses j).doc_id ops) :
    ∃ clauses', for_each call (front ++ i :: same) st.clauses = some clauses' ∧
      ∀ j, BmwClause.From V q (st.clauses j) (clauses' j) := by
  obtain ⟨clauses', heach, hin, hrest⟩ := for_each_spec (h.side_nodup hgood) hcall
  grind [BmwClause.From.of_le, Good.inv]

theorem score_branch (h : Sides V st front i same later) (hgood : Good V st)
    (hon : ∀ j ∈ front ++ i :: same, (st.clauses j).doc_id ops = (st.clauses i).doc_id ops) :
    ∃ clauses', for_each (BmwClause.next ops) (front ++ i :: same) st.clauses = some clauses' ∧
      Moves V ((st.clauses i).doc_id ops + 1) st.clauses clauses' ∧
      Offered V st.clauses ((st.clauses i).doc_id ops + 1) st.collector
        (st.collector.collect ((st.clauses i).doc_id ops)
          ((front ++ i :: same).map fun j => (st.clauses j).scorer.score
            ((st.clauses i).doc_id ops) ((st.clauses j).term_freq ops : 𝕜) none).sum) := by
  have hend := h.pivot_lt_end hgood
  have hpivot : ((st.clauses i).rem V).Nonempty := h.side_live hgood (by simp)
  obtain ⟨clauses', heach, hbrought⟩ := for_each_moves h hgood
    (fun j hj => BmwClause.next_spec (hgood.inv j) (hon j hj))
    fun j hj => h.lt_outside hgood hj
  refine ⟨clauses', heach, ⟨hend, hbrought, i, hpivot, by omega⟩, Or.inr ?_⟩
  refine ⟨(st.clauses i).doc_id ops,
    mem_remaining.2 ⟨i, BmwClause.doc_id_mem (hgood.inv i) hpivot⟩, fun x hx => ?_, ?_⟩
  · -- no clause is before the pivot document
    obtain ⟨j, hj⟩ := mem_remaining.1 hx
    have hle := BmwClause.doc_id_le (hgood.inv j) hj
    by_cases hside : j ∈ front ++ i :: same
    · have := hon j hside
      omega
    · have := h.lt_outside hgood hside
      omega
  · congr 1
    rw [total_eq_sum (h.side_nodup hgood) fun j hj hmem => by
      have hlt := h.lt_outside hgood hj
      have hle := BmwClause.doc_id_le (hgood.inv j) hmem
      omega]
    refine congrArg List.sum (List.map_congr_left fun j hj => ?_)
    have hmem : (st.clauses i).doc_id ops ∈ (st.clauses j).rem V := by
      rw [← hon j hj]
      exact BmwClause.doc_id_mem (hgood.inv j) (h.side_live hgood hj)
    rw [BmwClause.share, if_pos hmem, BmwClause.value, BmwClause.term_freq, hon j hj]

theorem catch_up_branch [IsStrictOrderedRing 𝕜] (h : Sides V st front i same later)
    (hgood : Good V st)
    (hlag : ∃ j ∈ front ++ i :: same, (st.clauses j).doc_id ops < (st.clauses i).doc_id ops) :
    ∃ clauses', for_each (BmwClause.catch_up ops ((st.clauses i).doc_id ops))
        (front ++ i :: same) st.clauses = some clauses' ∧
      Moves V ((st.clauses i).doc_id ops) st.clauses clauses' ∧
      Offered V st.clauses ((st.clauses i).doc_id ops) st.collector st.collector := by
  obtain ⟨clauses', heach, hbrought⟩ := for_each_moves h hgood
    (fun j hj => BmwClause.catch_up_spec (hgood.inv j) (h.side_live hgood hj))
    fun j hj => (h.lt_outside hgood hj).le
  obtain ⟨j, hj, hlt⟩ := hlag
  refine ⟨clauses', heach, ⟨(h.pivot_lt_end hgood).le, hbrought, j, h.side_live hgood hj, hlt⟩,
    Or.inl ⟨rfl, fun d hd hbefore => h.before_pivot hgood hd hbefore⟩⟩

/-- The blocks of the pivot document cannot compete: the clauses skip to where
the first of them ends, or the next clause starts. -/
theorem skip_branch [IsStrictOrderedRing 𝕜] (h : Sides V st front i same later)
    (hgood : Good V st)
    (hlow : ((((front ++ i :: same).map fun j => (st.clauses j).scorer.current_block_max_score
      ((st.clauses i).doc_id ops)).sum : 𝕜) : WithBot 𝕜) ≤ st.collector.min_competitive)
    {start : ℕ} (hstart : start = (later.head?.map fun j => (st.clauses j).doc_id ops).getD END)
    (hq : q = nearest_boundary st.clauses ((st.clauses i).doc_id ops) start
      (front ++ i :: same)) :
    ∃ clauses', for_each (BmwClause.skip_to ops q) (front ++ i :: same) st.clauses =
        some clauses' ∧
      Moves V q st.clauses clauses' ∧ Offered V st.clauses q st.collector st.collector := by
  have hpivot : ((st.clauses i).rem V).Nonempty := h.side_live hgood (by simp)
  have hend := h.pivot_lt_end hgood
  have hsome : ∀ k ∈ later.head?, start = (st.clauses k).doc_id ops := by
    intro k hk
    rw [hstart, hk]
    rfl
  have hstart_lt : (st.clauses i).doc_id ops < start := by
    cases hhead : later.head? with
    | none =>
        rw [hstart, hhead]
        exact hend
    | some k =>
        rw [hsome k hhead]
        exact h.lt_later_head hhead
  have hstart_end : start ≤ END := by
    cases hhead : later.head? with
    | none =>
        rw [hstart, hhead]
        exact le_rfl
    | some k =>
        rw [hsome k hhead]
        exact BmwClause.doc_id_le_end (hgood.inv k)
  obtain ⟨hq_le, hq_boundary⟩ := nearest_boundary_le st.clauses (front ++ i :: same)
    ((st.clauses i).doc_id ops) start
  rw [← hq] at hq_le hq_boundary
  have hq_lt : (st.clauses i).doc_id ops < q := by
    rw [hq]
    exact lt_nearest_boundary hend hstart_lt
  have hout : ∀ j, j ∉ front ++ i :: same → q ≤ (st.clauses j).doc_id ops := by
    intro j hj
    rcases h.outside hgood hj with ⟨k, hk, hle⟩ | hdoc
    · have := hsome k hk
      omega
    · omega
  obtain ⟨clauses', heach, hbrought⟩ := for_each_moves h hgood
    (fun j hj => BmwClause.skip_to_spec (hgood.inv j) (h.side_live hgood hj)
      ((h.side_le hj).trans hq_lt.le)) hout
  refine ⟨clauses', heach, ⟨hq_le.trans hstart_end, hbrought, i, hpivot, hq_lt⟩,
    Or.inl ⟨rfl, fun d hd hbefore => ?_⟩⟩
  rcases Nat.lt_or_ge d ((st.clauses i).doc_id ops) with hlt | hge
  · exact h.before_pivot hgood hd hlt
  -- from the pivot on only the pivot side may hold it, each clause in its block
  refine le_trans (WithBot.coe_le_coe.2 (total_le_sum (h.side_nodup hgood)
    (fun j hj hmem => ?_) (fun j _ => ?_) fun j hj hmem => ?_)) hlow
  · have hle := BmwClause.doc_id_le (hgood.inv j) hmem
    have := hout j hj
    omega
  · exact (hgood.sound j).current_block_max_score_nonneg _
  · exact (hgood.sound j).score_le_current_block_max_score hmem hge fun boundary hboundary =>
      hbefore.trans_le (hq_boundary j hj boundary hboundary)

end Branches

/-! ## The turn -/

section Iterate

variable {V : MatcherView ops} {st : BmwState 𝕜 σ n} {front same later : List (Fin n)}
variable {i : Fin n}

theorem advance_spec [IsStrictOrderedRing 𝕜] (h : Sides V st front i same later)
    (hgood : Good V st) :
    ∃ clauses' c' q, advance ops st.clauses ((st.clauses i).doc_id ops)
        (front.length + same.length) st.collector.min_competitive
        (front ++ i :: same ++ later) st.collector = some (clauses', c') ∧
      Moves V q st.clauses clauses' ∧ Offered V st.clauses q st.collector c' := by
  have hlen : (front ++ i :: same).length = front.length + same.length + 1 := by grind
  have hside : (front ++ i :: same ++ later).take (front.length + same.length + 1) =
      front ++ i :: same := List.take_left' hlen
  have hnext : (front ++ i :: same ++ later)[front.length + same.length + 1]? =
      later.head? := by
    rw [← hlen, List.getElem?_append_right (le_refl _), Nat.sub_self, List.head?_eq_getElem?]
  rw [advance]
  simp only [hside, hnext]
  split
  · -- the first clause tells whether all are on the pivot document
    have hfirst : ∀ j ∈ (front ++ i :: same ++ later).head?, ∀ k ∈ front ++ i :: same,
        (st.clauses j).doc_id ops ≤ (st.clauses k).doc_id ops := by
      intro j hj k hk
      obtain ⟨rest, hlist⟩ := List.head?_eq_some_iff.1 hj
      have hsorted := h.sorted
      have hmem : k ∈ front ++ i :: same ++ later := List.mem_append_left _ hk
      rw [hlist] at hsorted hmem
      rcases List.mem_cons.1 hmem with rfl | hmem
      · exact le_rfl
      · exact (List.pairwise_cons.1 hsorted).1 k hmem
    obtain ⟨j, hj⟩ : ∃ j, (front ++ i :: same ++ later).head? = some j := by simp
    have hj_side : j ∈ front ++ i :: same := by
      cases front with
      | nil =>
          grind
      | cons k front =>
          grind
    split
    · rename_i hon
      rw [hj, Option.map_some, Option.some.injEq] at hon
      obtain ⟨clauses', heach, hmoves, hoffered⟩ := score_branch h hgood fun k hk =>
        le_antisymm (h.side_le hk) (hon.symm.le.trans (hfirst j hj k hk))
      grind
    · rename_i hon
      rw [hj, Option.map_some, Option.some.injEq] at hon
      obtain ⟨clauses', heach, hmoves, hoffered⟩ := catch_up_branch h hgood
        ⟨j, hj_side, lt_of_le_of_ne (h.side_le hj_side) hon⟩
      grind
  · rename_i hlow
    obtain ⟨clauses', heach, hmoves, hoffered⟩ :=
      skip_branch h hgood (not_lt.1 hlow) rfl rfl
    grind

instance (clauses : Fin n → BmwClause 𝕜 σ) : Std.Total (doc_order ops clauses) where
  total i j := le_total ((clauses i).doc_id ops) ((clauses j).doc_id ops)

instance (clauses : Fin n → BmwClause 𝕜 σ) : IsTrans (Fin n) (doc_order ops clauses) where
  trans _ _ _ hij hjk := Nat.le_trans hij hjk

theorem sound_from {c c' : BmwClause 𝕜 σ} {q : ℕ} (h : BmwClause.From V q c c')
    (hsound : c.scorer.Sound (c.rem V) c.term_freqs) :
    c'.scorer.Sound (c'.rem V) c'.term_freqs := by
  rw [h.scorer, h.term_freqs, h.rem]
  exact hsound.mono (Finset.filter_subset _ _)

/-- **What a turn does.** -/
theorem iterate_spec [IsStrictOrderedRing 𝕜] (hgood : Good V st) :
    (iterate ops st = some .stop ∧ ∀ d ∈ remaining V st.clauses,
      ((total V st.clauses d : 𝕜) : WithBot 𝕜) ≤ st.collector.min_competitive) ∨
    ∃ st' q, iterate ops st = some (.more st') ∧ Good V st' ∧
      Moves V q st.clauses st'.clauses ∧
      Offered V st.clauses q st.collector st'.collector := by
  have hempty : ∀ d, d ∈ remaining V st.clauses → st.active ≠ [] := by
    intro d hd
    obtain ⟨i, hi⟩ := mem_remaining.1 hd
    exact List.ne_nil_of_mem ((hgood.mem_active i).2 ⟨d, hi⟩)
  rw [iterate]
  split
  · grind
  have hperm : (st.active.insertionSort (doc_order ops st.clauses)).Perm st.active :=
    List.perm_insertionSort _ _
  have hsorted := List.pairwise_insertionSort (doc_order ops st.clauses) st.active
  simp only
  split
  · -- the bounds of all clauses do not get past the threshold
    rename_i hnone
    refine Or.inl ⟨rfl, fun d hd => ?_⟩
    have hne : st.active.insertionSort (doc_order ops st.clauses) ≠ [] := fun hnil =>
      hempty d hd (List.perm_nil.1 (hnil ▸ hperm.symm))
    have hlow := find_pivot_none hnone hne
    rw [zero_add] at hlow
    refine le_trans (WithBot.coe_le_coe.2 (total_le_sum (hperm.nodup_iff.2 hgood.nodup)
      (fun j hj hmem => hj ?_) (fun j _ => ?_) fun j _ hmem => ?_)) hlow
    · exact hperm.mem_iff.2 ((hgood.mem_active j).2 ⟨d, hmem⟩)
    · exact (hgood.sound j).block_max_score_at_nonneg _
    · exact (hgood.sound j).score_le_block_max_score_at hmem
        (BmwClause.doc_id_le (hgood.inv j) hmem)
  · rename_i pivot hpivot
    obtain ⟨front, i, rest, hlist, hfront, hlow⟩ := find_pivot_some hpivot
    obtain ⟨same, later, hrest, hsame_len, hsame, hlater⟩ :=
      aligned_spec ops st.clauses ((st.clauses i).doc_id ops) rest
    have hdrop : (front ++ i :: rest).drop (pivot + 1) = rest := by
      rw [List.append_cons]
      exact List.drop_left' (by grind)
    rw [zero_add] at hlow
    have hsides : Sides V st front i same later := by
      refine ⟨?_, ?_, hsame, hlater, hlow⟩
      · grind
      grind
    obtain ⟨clauses', c', q, hadvance, hmoves, hoffered⟩ := advance_spec hsides hgood
    refine Or.inr ⟨{
      clauses := clauses'
      active := (front ++ i :: rest).filter fun i => (clauses' i).live ops
      collector := c' }, q, ?_, ?_, hmoves, hoffered⟩
    · grind
    · have hactive : ∀ j, j ∈ front ++ i :: rest ↔ j ∈ st.active := by grind
      refine ⟨fun j => (hmoves.brought j).inv,
        fun j => sound_from (hmoves.brought j) (hgood.sound j), ?_, fun j => ?_⟩
      · rw [← hlist]
        exact (hperm.nodup_iff.2 hgood.nodup).filter _
      · rw [List.mem_filter, hactive, hgood.mem_active,
          BmwClause.live_iff (hmoves.brought j).inv, (hmoves.brought j).rem]
        grind

end Iterate

end BlockMaxOrExecutor

end Laurus
