import Laurus.Posting.Model.Format
import Laurus.Posting.Model.Posting

/-!
# What the decoder's own checks accept

`check_ascending_doc_ids` passes the strictly ascending lists and
`skip_levels_match` the table `build_skip_levels` makes; neither leaves the
document ids (`skip_levels_match_eq`, `rebuilt_skip_levels_eq`).
-/

namespace Laurus

/-!
## What a skip table's entries are

The shape's `k`-th stride is `SKIP_INTERVAL ^ (k + 1)`, a `usize`, and
its windows lie inside the list (`skip_level_shape_get`); so the `j`-th
entry of level `k` is the last document of its window
(`build_skip_levels_get`).
-/

theorem checked_mul_eq_some {a b c : ℕ} : checked_mul a b = some c ↔ a * b < 2 ^ 64 ∧ c = a * b := by
  unfold checked_mul
  grind

theorem skip_level_shape_from_get {n turns j : ℕ} (hj : SKIP_INTERVAL ^ (j + 1) < 2 ^ 64) :
    ∀ {k : ℕ} {s : ℕ × ℕ}, (skip_level_shape_from n turns (SKIP_INTERVAL ^ (j + 1)))[k]? = some s →
      s = (SKIP_INTERVAL ^ (j + k + 1), n / SKIP_INTERVAL ^ (j + k + 1)) ∧
        SKIP_INTERVAL ^ (j + k + 1) < 2 ^ 64 ∧ SKIP_INTERVAL ^ (j + k + 1) ≤ n := by
  induction turns generalizing j with
  | zero => intro k s h; simp [skip_level_shape_from] at h
  | succ turns ih =>
      intro k s h
      rw [skip_level_shape_from] at h
      by_cases hlen : n / SKIP_INTERVAL ^ (j + 1) = 0
      · simp [hlen] at h
      · simp only [if_neg hlen] at h
        have hle : SKIP_INTERVAL ^ (j + 1) ≤ n := by
          grind [Nat.div_eq_of_lt]
        cases k with
        | zero =>
            grind
        | succ k =>
            split at h
            · simp at h
            · split at h
              · rename_i step hstep
                obtain ⟨hlt, rfl⟩ := checked_mul_eq_some.1 hstep
                have hnext := ih (j := j + 1) (by rw [pow_succ]; exact hlt) (k := k) (s := s)
                  (by rw [pow_succ]; exact h)
                grind
              · simp at h

/-- **The shape's strides are the powers of the interval**, each a `usize`
with a window in the list. -/
theorem skip_level_shape_get {n k : ℕ} {s : ℕ × ℕ} (h : (skip_level_shape n)[k]? = some s) :
    s = (SKIP_INTERVAL ^ (k + 1), n / SKIP_INTERVAL ^ (k + 1)) ∧
      SKIP_INTERVAL ^ (k + 1) < 2 ^ 64 ∧ SKIP_INTERVAL ^ (k + 1) ≤ n := by
  rw [skip_level_shape] at h
  split at h
  · have h' : (skip_level_shape_from n 21 (SKIP_INTERVAL ^ (0 + 1)))[k]? = some s := by
      simpa using h
    simpa using skip_level_shape_from_get (by decide) h'
  · simp at h

/-- **An entry is the last document of its window**, and the window lies in
the list. -/
theorem build_skip_levels_get {doc_ids level : List UInt32} {k j : ℕ} {d : UInt32}
    (hlevel : (build_skip_levels doc_ids)[k]? = some level) (hd : level[j]? = some d) :
    (j + 1) * SKIP_INTERVAL ^ (k + 1) ≤ doc_ids.length ∧
      doc_ids[(j + 1) * SKIP_INTERVAL ^ (k + 1) - 1]? = some d := by
  rw [build_skip_levels, List.getElem?_map, Option.map_eq_some_iff] at hlevel
  obtain ⟨s, hs, rfl⟩ := hlevel
  obtain ⟨rfl, -, -⟩ := skip_level_shape_get hs
  simp only [skip_level, List.getElem?_map, Option.map_eq_some_iff] at hd
  obtain ⟨i, hi, rfl⟩ := hd
  obtain ⟨hlt, rfl⟩ := List.getElem?_eq_some_iff.1 hi
  grind [Nat.le_div_iff_mul_le]

namespace PostingList

/-! ## Ascending documents -/

theorem pairwise_lt_iff_zip (doc_ids : List UInt32) :
    doc_ids.Pairwise (· < ·) ↔ ∀ pair ∈ doc_ids.zip doc_ids.tail, pair.1 < pair.2 := by
  induction doc_ids with
  | nil => simp
  | cons a rest ih =>
      cases rest with
      | nil => simp
      | cons b rest =>
          have hzip : (a :: b :: rest).zip (a :: b :: rest).tail =
              (a, b) :: (b :: rest).zip (b :: rest).tail := rfl
          rw [hzip, List.forall_mem_cons, ← ih]
          grind

variable {doc_ids : List UInt32}

theorem check_ascending_doc_ids_eq_ok :
    check_ascending_doc_ids doc_ids = .ok () ↔ doc_ids.Pairwise (· < ·) := by
  rw [pairwise_lt_iff_zip, check_ascending_doc_ids]
  cases hf : (doc_ids.zip doc_ids.tail).zipIdx.find? fun pair => pair.1.2 ≤ pair.1.1 with
  | none =>
      simp only [List.find?_eq_none, decide_eq_true_eq, UInt32.not_le] at hf
      refine ⟨fun _ pair hpair => ?_, fun _ => rfl⟩
      obtain ⟨i, hi⟩ := List.getElem?_of_mem hpair
      exact hf (pair, i) (List.mem_zipIdx_iff_getElem?.2 hi)
  | some found =>
      grind

/-! ## The skip table -/

/-- A shape whose windows lie in a list of `n`. -/
def WindowsFit (n : ℕ) (s : ℕ × ℕ) : Prop := 0 < s.1 ∧ s.2 * s.1 ≤ n

theorem skip_level_shape_fits {n : ℕ} {s : ℕ × ℕ} (h : s ∈ skip_level_shape n) : WindowsFit n s := by
  obtain ⟨k, hk⟩ := List.getElem?_of_mem h
  obtain ⟨rfl, -, -⟩ := skip_level_shape_get hk
  exact ⟨Nat.pow_pos (by decide), Nat.div_mul_le_self _ _⟩

theorem window_last_eq {step i : ℕ} (hstep : 0 < step)
    (hfit : (i + 1) * step ≤ doc_ids.length) (h64 : doc_ids.length < 2 ^ 64) :
    window_last doc_ids step i = .ok (doc_ids.getD ((i + 1) * step - 1) 0) := by
  grind [window_last]

theorem level_matches_eq {step : ℕ} (hstep : 0 < step)
    (h64 : doc_ids.length < 2 ^ 64) : ∀ (level : List UInt32) (i : ℕ),
      (i + level.length) * step ≤ doc_ids.length →
      level_matches doc_ids step i level = .ok (decide (level =
        (List.range' i level.length).map fun j => doc_ids.getD ((j + 1) * step - 1) 0)) := by
  intro level
  induction level with
  | nil => intro i _; rfl
  | cons doc_id level ih =>
      intro i hfit
      rw [List.length_cons] at hfit
      have hone : (i + 1) * step ≤ doc_ids.length :=
        le_trans (Nat.mul_le_mul_right step (by omega)) hfit
      have hlast := window_last_eq hstep hone h64
      have hrest := ih (i + 1) (by grind)
      rw [level_matches, hlast, List.length_cons, List.range'_succ, List.map_cons]
      simp only [bind, Except.bind]
      by_cases heq : doc_id = doc_ids.getD ((i + 1) * step - 1) 0
      · rw [if_pos heq, hrest]
        simp only [List.cons.injEq, heq, true_and]
      · rw [if_neg heq]
        simp only [List.cons.injEq, heq, false_and, decide_false]
        rfl

theorem length_skip_level (doc_ids : List UInt32) (step len : ℕ) :
    (skip_level doc_ids step len).length = len := by
  simp [skip_level]

theorem skip_levels_match_from_eq (h64 : doc_ids.length < 2 ^ 64) :
    ∀ (shape : List (ℕ × ℕ)) (levels : List (List UInt32)),
      (∀ s ∈ shape, WindowsFit doc_ids.length s) →
      skip_levels_match_from doc_ids shape levels = .ok (decide
        (levels = shape.map fun (step, len) => skip_level doc_ids step len)) := by
  intro shape
  induction shape with
  | nil => intro levels _; cases levels <;> rfl
  | cons s shape ih =>
      intro levels hfits
      obtain ⟨step, len⟩ := s
      obtain ⟨hstep, hfit⟩ := hfits (step, len) List.mem_cons_self
      cases levels with
      | nil => rfl
      | cons level levels =>
          rw [skip_levels_match_from, List.map_cons]
          by_cases hlen : level.length = len
          · have hlevel : level_matches doc_ids step 0 level =
                .ok (decide (level = skip_level doc_ids step len)) := by
              rw [level_matches_eq hstep h64 level 0 (by rw [Nat.zero_add, hlen]; exact hfit),
                hlen, ← List.range_eq_range']
              rfl
            rw [if_pos hlen, hlevel]
            simp only [bind, Except.bind, List.cons.injEq]
            by_cases heq : level = skip_level doc_ids step len
            · grind
            · simp only [heq, decide_false, Bool.false_eq_true, if_false, false_and]
              rfl
          · have hne : level ≠ skip_level doc_ids step len := fun h =>
              hlen (by rw [h, length_skip_level])
            rw [if_neg hlen]
            simp only [List.cons.injEq, hne, false_and, decide_false]
            rfl

/-- **The comparison in place is the comparison with the table built from the
documents**, and no index leaves them. -/
theorem skip_levels_match_eq (levels : List (List UInt32))
    (h64 : doc_ids.length < 2 ^ 64) :
    skip_levels_match levels doc_ids = .ok (decide (levels = build_skip_levels doc_ids)) :=
  skip_levels_match_from_eq h64 _ levels fun _ hs => skip_level_shape_fits hs

theorem rebuilt_skip_levels_eq (h64 : doc_ids.length < 2 ^ 64) :
    rebuilt_skip_levels doc_ids = .ok (build_skip_levels doc_ids) := by
  unfold rebuilt_skip_levels
  rw [if_pos]
  simp only [List.all_eq_true, List.mem_range]
  rintro ⟨step, len⟩ hs i hi
  obtain ⟨hstep, hfit⟩ := skip_level_shape_fits hs
  have hone : (i + 1) * step ≤ doc_ids.length :=
    le_trans (Nat.mul_le_mul_right step (by omega)) hfit
  rw [window_last_eq hstep hone h64]
  rfl

end PostingList

end Laurus
