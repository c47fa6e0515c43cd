import Laurus.Search.Model.Scorer
import Mathlib.Tactic.Linarith
import Mathlib.Tactic.Positivity

/-!
# The bounds of a scorer hold

`BM25Scorer.Sound` says what a term's tables promise: that no document of
the term has a greater component than its block's factor or the term's. From
it come the bounds of the scores: over all documents from one on, over those
of one block, and where the next block starts.
-/

namespace Laurus

variable {𝕜 : Type}

/-! ## The table of blocks -/

section Table

variable {blocks : List (BlockMax 𝕜)} {block : BlockMax 𝕜} {p d : ℕ}

theorem block_of_le (hpd : p ≤ d)
    (hfind : blocks.find? (fun b => d ≤ b.last_doc_id) = some block)
    (hle : ∀ b, blocks[blocks.findIdx fun b => p ≤ b.last_doc_id]? = some b →
      d ≤ b.last_doc_id) :
    blocks[blocks.findIdx fun b => p ≤ b.last_doc_id]? = some block := by
  induction blocks with
  | nil => exact absurd hfind (by simp)
  | cons first blocks ih =>
      grind

variable [LinearOrder 𝕜]

theorem compute_right_max_head (h : block ∈ blocks) :
    ∃ m, (compute_right_max blocks).head? = some m ∧ block.max_factor ≤ m := by
  induction blocks with
  | nil => exact absurd h List.not_mem_nil
  | cons first blocks ih =>
      refine ⟨_, rfl, ?_⟩
      rcases List.mem_cons.1 h with rfl | h
      · cases (compute_right_max blocks).head? with
        | none => exact le_rfl
        | some m => exact le_max_left _ _
      grind

theorem le_compute_right_max {low : 𝕜} (h : ∀ block ∈ blocks, low ≤ block.max_factor) :
    ∀ m ∈ compute_right_max blocks, low ≤ m := by
  induction blocks with
  | nil => exact fun m hm => absurd hm List.not_mem_nil
  | cons first blocks ih =>
      have hrest := ih fun block hb => h block (List.mem_cons_of_mem _ hb)
      intro m hm
      rcases List.mem_cons.1 hm with rfl | hm
      · have hfirst := h first List.mem_cons_self
        cases (compute_right_max blocks).head? with
        | none => exact hfirst
        | some m => exact hfirst.trans (le_max_left _ _)
      · exact hrest m hm

theorem compute_right_max_spec (hpd : p ≤ d)
    (hfind : blocks.find? (fun b => d ≤ b.last_doc_id) = some block) :
    ∃ m, (compute_right_max blocks)[blocks.findIdx fun b => p ≤ b.last_doc_id]? = some m ∧
      block.max_factor ≤ m := by
  induction blocks with
  | nil => exact absurd hfind (by simp)
  | cons first blocks ih =>
      by_cases hp : p ≤ first.last_doc_id
      · -- the first entry is above all
        obtain ⟨m, hm, hle⟩ := compute_right_max_head (List.mem_of_find?_eq_some hfind)
        refine ⟨m, ?_, hle⟩
        rw [List.findIdx_cons, decide_eq_true hp, cond_true, ← List.head?_eq_getElem?]
        exact hm
      · have hd : ¬ d ≤ first.last_doc_id := by omega
        rw [List.find?_cons_of_neg (by simpa using hd)] at hfind
        obtain ⟨m, hm, hle⟩ := ih hfind
        refine ⟨m, ?_, hle⟩
        rw [List.findIdx_cons, decide_eq_false hp, cond_false, compute_right_max,
          List.getElem?_cons_succ]
        exact hm

end Table

variable [Field 𝕜] [LinearOrder 𝕜]

namespace BM25Scorer

variable {s : BM25Scorer 𝕜} {D : Finset ℕ} {term_freqs : ℕ → ℕ} {p d boundary : ℕ}

/-- The component of a document's score that the tables bound. -/
def component (s : BM25Scorer 𝕜) (d term_freq : ℕ) : 𝕜 := s.tf term_freq (s.field_len d none)

/-- The tables of a term hold for its documents `D`: an ascending table of
blocks as it is loaded, in which each document has a block, the first that
does not end before it, whose factor is above the document's. -/
structure Sound (s : BM25Scorer 𝕜) (D : Finset ℕ) (term_freqs : ℕ → ℕ) : Prop where
  boost_nonneg : 0 ≤ s.boost
  idf_nonneg : 0 ≤ s.cached_idf
  k1_nonneg : 0 ≤ s.k1
  b_nonneg : 0 ≤ s.b
  b_le_one : s.b ≤ 1
  avg_nonneg : 0 ≤ s.avg_field_length
  ascending : s.block_max.Pairwise fun b b' => b.last_doc_id < b'.last_doc_id
  factor_nonneg : ∀ block ∈ s.block_max, 0 ≤ block.max_factor
  term_bound : 0 < s.max_score_factor → s.default_params = true →
    ∀ d ∈ D, s.component d (term_freqs d) ≤ s.max_score_factor
  block_bound : s.block_max ≠ [] → s.default_params = true → ∀ d ∈ D, ∃ block,
    s.block_max.find? (fun b => d ≤ b.last_doc_id) = some block ∧
      s.component d (term_freqs d) ≤ block.max_factor

theorem score_eq (s : BM25Scorer 𝕜) (d term_freq : ℕ) (h : ¬ (s.doc_freq = 0 ∨ s.total_docs = 0)) :
    s.score d term_freq none = s.boost * s.cached_idf * s.component d term_freq := by
  rw [score, component]
  by_cases hfreq : (term_freq : 𝕜) = 0
  · rw [if_pos (Or.inr (Or.inr hfreq)), tf, if_pos hfreq, mul_zero]
  · rw [if_neg (by simp [h, hfreq])]

theorem field_len_of_lengths {get : ℕ → Option ℕ} (h : s.lengths = some get) (d : ℕ) :
    s.field_len d none = (Option.map (fun len : ℕ => (len : 𝕜)) (get d)).getD s.avg_field_length := by
  rw [field_len, h, Option.bind_some]
  grind

theorem score_of_absent (s : BM25Scorer 𝕜) (d term_freq : ℕ)
    (h : s.doc_freq = 0 ∨ s.total_docs = 0) : s.score d term_freq none = 0 := by
  rw [score, if_pos (h.elim Or.inl fun h => Or.inr (Or.inl h))]

theorem Sound.mono {D' : Finset ℕ} (h : s.Sound D term_freqs) (hsub : D' ⊆ D) :
    s.Sound D' term_freqs :=
  { h with
    term_bound := fun hfactor hdefault d hd => h.term_bound hfactor hdefault d (hsub hd)
    block_bound := fun hblocks hdefault d hd => h.block_bound hblocks hdefault d (hsub hd) }

variable [IsStrictOrderedRing 𝕜]

theorem field_len_nonneg (h : 0 ≤ s.avg_field_length) : 0 ≤ s.field_len d none := by
  rw [field_len]
  grind

theorem norm_factor_nonneg (hb : 0 ≤ s.b) (hb' : s.b ≤ 1) (havg : 0 ≤ s.avg_field_length) :
    0 ≤ s.norm_factor (s.field_len d none) := by
  rw [norm_factor]
  split
  · exact zero_le_one
  · have hratio : 0 ≤ s.field_len d none / s.avg_field_length :=
      div_nonneg (field_len_nonneg havg) havg
    have hpart := mul_nonneg hb hratio
    linarith

theorem component_le_of_nonneg (hk : 0 ≤ s.k1) (hnorm : 0 ≤ s.norm_factor (s.field_len d none))
    (term_freq : ℕ) : s.component d term_freq ≤ s.k1 + 1 := by
  rw [component, tf]
  split
  · linarith
  · rename_i hne
    have hpos : (0 : 𝕜) < term_freq := lt_of_le_of_ne (Nat.cast_nonneg _) (Ne.symm hne)
    have hscaled : 0 ≤ s.k1 * s.norm_factor (s.field_len d none) := mul_nonneg hk hnorm
    rw [div_le_iff₀ (by linarith)]
    have hgrow : 0 ≤ (s.k1 + 1) * (s.k1 * s.norm_factor (s.field_len d none)) :=
      mul_nonneg (by linarith) hscaled
    linarith

namespace Sound

theorem norm_nonneg (h : s.Sound D term_freqs) : 0 ≤ s.norm_factor (s.field_len d none) :=
  norm_factor_nonneg h.b_nonneg h.b_le_one h.avg_nonneg

theorem component_le_ceiling (h : s.Sound D term_freqs) (term_freq : ℕ) :
    s.component d term_freq ≤ s.k1 + 1 :=
  component_le_of_nonneg h.k1_nonneg h.norm_nonneg term_freq

theorem weight_nonneg (h : s.Sound D term_freqs) : 0 ≤ s.boost * s.cached_idf :=
  mul_nonneg h.boost_nonneg h.idf_nonneg

theorem max_score_nonneg (h : s.Sound D term_freqs) : 0 ≤ s.max_score := by
  grind [k1_nonneg, max_score, mul_nonneg, weight_nonneg]

theorem score_le_max_score (h : s.Sound D term_freqs) (hd : d ∈ D) :
    s.score d (term_freqs d) none ≤ s.max_score := by
  by_cases habsent : s.doc_freq = 0 ∨ s.total_docs = 0
  · rw [score_of_absent s d _ habsent, max_score, if_pos habsent]
  · rw [score_eq s d _ habsent, max_score, if_neg habsent]
    grind [mul_le_mul_of_nonneg_left, weight_nonneg, term_bound, component_le_ceiling]

theorem bound_at_nonneg (h : s.Sound D term_freqs) {factors : List 𝕜}
    (hfactors : ∀ factor ∈ factors, 0 ≤ factor) : 0 ≤ s.bound_at factors p := by
  grind [bound_at, max_score_nonneg, mul_nonneg, weight_nonneg]

theorem score_le_bound_at (h : s.Sound D term_freqs) (hd : d ∈ D) {factors : List 𝕜}
    (hentry : s.block_max ≠ [] → s.default_params = true →
      ∃ factor, factors[s.partition_point p]? = some factor ∧
        s.component d (term_freqs d) ≤ factor) :
    s.score d (term_freqs d) none ≤ s.bound_at factors p := by
  rw [bound_at]
  split
  · exact h.score_le_max_score hd
  rename_i hblocks
  split
  · rename_i habsent
    exact (score_of_absent s d _ habsent).le
  rename_i habsent
  split
  · exact h.score_le_max_score hd
  rename_i hdefault
  obtain ⟨factor, hat, hle⟩ := hentry (by simpa using hblocks) (by simpa using hdefault)
  rw [hat, score_eq s d _ habsent]
  exact mul_le_mul_of_nonneg_left hle h.weight_nonneg

theorem block_max_score_at_nonneg (h : s.Sound D term_freqs) (p : ℕ) :
    0 ≤ s.block_max_score_at p := by
  refine h.bound_at_nonneg ?_
  rw [s.right_max_eq]
  exact le_compute_right_max h.factor_nonneg

theorem current_block_max_score_nonneg (h : s.Sound D term_freqs) (p : ℕ) :
    0 ≤ s.current_block_max_score p := by
  refine h.bound_at_nonneg fun factor hfactor => ?_
  grind [factor_nonneg]

/-- **The suffix bound holds for every document from `p` on.** -/
theorem score_le_block_max_score_at (h : s.Sound D term_freqs) (hd : d ∈ D) (hpd : p ≤ d) :
    s.score d (term_freqs d) none ≤ s.block_max_score_at p := by
  refine h.score_le_bound_at hd fun hblocks hdefault => ?_
  obtain ⟨block, hfind, hle⟩ := h.block_bound hblocks hdefault d hd
  obtain ⟨m, hm, hmax⟩ := compute_right_max_spec hpd hfind
  refine ⟨m, ?_, hle.trans hmax⟩
  rw [s.right_max_eq]
  exact hm

/-- **The bound of the block holding `p` holds up to where the next starts.** -/
theorem score_le_current_block_max_score (h : s.Sound D term_freqs) (hd : d ∈ D) (hpd : p ≤ d)
    (hbefore : ∀ boundary, s.next_block_boundary p = some boundary → d < boundary) :
    s.score d (term_freqs d) none ≤ s.current_block_max_score p := by
  refine h.score_le_bound_at hd fun hblocks hdefault => ?_
  obtain ⟨block, hfind, hle⟩ := h.block_bound hblocks hdefault d hd
  have hin : ∀ b, s.block_max[s.partition_point p]? = some b → d ≤ b.last_doc_id := by
    intro b hb
    have hlt := hbefore (min (b.last_doc_id + 1) (2 ^ 64 - 1)) (by
      rw [next_block_boundary, if_neg (by simpa using hblocks), if_neg (by simp [hdefault]), hb])
    omega
  refine ⟨block.max_factor, ?_, hle⟩
  rw [List.getElem?_map, partition_point, block_of_le hpd hfind hin]
  rfl

end Sound

omit [IsStrictOrderedRing 𝕜] in
theorem lt_next_block_boundary (hp : p < 2 ^ 64 - 1)
    (h : s.next_block_boundary p = some boundary) : p < boundary := by
  rw [next_block_boundary] at h
  split at h
  · exact absurd h (by simp)
  split at h
  · exact absurd h (by simp)
  split at h
  · rw [Option.some.injEq] at h
    omega
  · rename_i block hat
    have hlen : s.block_max.findIdx (fun b => p ≤ b.last_doc_id) < s.block_max.length :=
      (List.getElem?_eq_some_iff.1 hat).1
    have hle := List.findIdx_getElem (w := hlen)
    have hblock := (List.getElem?_eq_some_iff.1 hat).2
    rw [show s.block_max[s.block_max.findIdx fun b => p ≤ b.last_doc_id] = block from hblock,
      decide_eq_true_eq] at hle
    rw [Option.some.injEq] at h
    omega

/-! ## The outer boost -/

section Boost

variable {outer_boost : 𝕜}

omit [IsStrictOrderedRing 𝕜] in
theorem score_set_boost (s : BM25Scorer 𝕜) (d term_freq : ℕ) :
    (s.set_boost (s.boost * outer_boost)).score d term_freq none =
      outer_boost * s.score d term_freq none := by
  by_cases habsent : s.doc_freq = 0 ∨ s.total_docs = 0
  · rw [score_of_absent s d _ habsent,
      score_of_absent (s.set_boost (s.boost * outer_boost)) d _ habsent, mul_zero]
  · rw [score_eq s d _ habsent, score_eq (s.set_boost (s.boost * outer_boost)) d _ habsent]
    show s.boost * outer_boost * s.cached_idf * s.component d term_freq = _
    ring

theorem Sound.set_boost (h : s.Sound D term_freqs) (houter : 0 ≤ outer_boost) :
    (s.set_boost (s.boost * outer_boost)).Sound D term_freqs where
  boost_nonneg := mul_nonneg h.boost_nonneg houter
  idf_nonneg := h.idf_nonneg
  k1_nonneg := h.k1_nonneg
  b_nonneg := h.b_nonneg
  b_le_one := h.b_le_one
  avg_nonneg := h.avg_nonneg
  ascending := h.ascending
  factor_nonneg := h.factor_nonneg
  term_bound := h.term_bound
  block_bound := h.block_bound

end Boost

end BM25Scorer

end Laurus
