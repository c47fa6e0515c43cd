import Laurus.Matcher.Helpers.Leaves

/-!
# A conjunction of ordered cursors is one

Unless it has ended, every matcher of a conjunction is on its current
document, and what remains is what remains for all of them. A turn of the
alignment lifts the matchers to the greatest of their documents; a turn that
does not align them leaves one beyond it, so the turns cannot outnumber the
documents.
-/

namespace Laurus

variable {σ : Type} {ops : MatcherOps σ} (V : MatcherView ops)

namespace ConjunctionMatcher

/-- What remains for all of the matchers. -/
def meet : List σ → Finset ℕ
  | [] => ∅
  | first :: others => (V.rem first).filter fun d => ∀ e ∈ others, d ∈ V.rem e

variable {V} {d M : ℕ} {matchers : List σ} {m : ConjunctionMatcher σ}

theorem mem_meet (h : matchers ≠ []) : d ∈ meet V matchers ↔ ∀ e ∈ matchers, d ∈ V.rem e := by
  cases matchers with
  | nil => exact absurd rfl h
  | cons first others => simp [meet]

/-! ## The two loops of a turn -/

theorem foldlM_max_doc : ∀ (matchers : List σ) (acc : ℕ),
    let r := matchers.foldlM (fun max_doc matcher =>
      if ops.doc_id matcher = END then none else some (max max_doc (ops.doc_id matcher))) acc
    (r = none → ∃ e ∈ matchers, ops.doc_id e = END) ∧
      ∀ M, r = some M → acc ≤ M ∧ (∀ e ∈ matchers, ops.doc_id e ≠ END ∧ ops.doc_id e ≤ M) ∧
        (M = acc ∨ ∃ e ∈ matchers, ops.doc_id e = M) := by
  intro matchers
  induction matchers with
  | nil => simp
  | cons e matchers ih =>
      intro acc
      by_cases hend : ops.doc_id e = END
      · simp [hend]
      · grind

theorem max_doc_none (h : max_doc ops matchers = none) : ∃ e ∈ matchers, ops.doc_id e = END :=
  (foldlM_max_doc matchers 0).1 h

theorem max_doc_some (hne : matchers ≠ []) (h : max_doc ops matchers = some M) :
    (∀ e ∈ matchers, ops.doc_id e ≠ END ∧ ops.doc_id e ≤ M) ∧
      ∃ e ∈ matchers, ops.doc_id e = M := by
  obtain ⟨-, hall, hM⟩ := (foldlM_max_doc matchers 0).2 M h
  refine ⟨hall, ?_⟩
  rcases hM with hM | hM
  · obtain ⟨e, he⟩ := List.exists_mem_of_ne_nil matchers hne
    grind
  · exact hM

/-- The matcher `e'` is `e` with what is below `M` dropped. -/
def Lifted (V : MatcherView ops) (M : ℕ) (e e' : σ) : Prop :=
  V.Inv e' ∧ V.rem e' = (V.rem e).filter fun d => M ≤ d

theorem Lifted.le_doc_id {e e' : σ} (h : Lifted V M e e') (hM : M ≤ END) :
    M ≤ ops.doc_id e' := by
  rw [V.head_eq h.1]
  refine le_first hM fun d hd => ?_
  rw [h.2] at hd
  exact (Finset.mem_filter.1 hd).2

theorem exists_of_lifted {matchers' : List σ} (h : List.Forall₂ (Lifted V M) matchers matchers') :
    ∀ e' ∈ matchers', ∃ e, Lifted V M e e' := by
  induction h with
  | nil => simp
  | cons hlift _ ih =>
      grind

theorem align_loop_spec : ∀ matchers : List σ,
    (∀ e ∈ matchers, V.Inv e ∧ ops.doc_id e ≠ END) →
    ∃ found aligned matchers', align_loop ops M matchers = some (found, aligned, matchers') ∧
      (found = false → ∃ e ∈ matchers, ∀ d ∈ V.rem e, ¬ M ≤ d) ∧
      (found = true → List.Forall₂ (Lifted V M) matchers matchers' ∧
        ((∀ e ∈ matchers, ops.doc_id e ≤ M) →
          (aligned = true ↔ ∀ e ∈ matchers', ops.doc_id e = M))) := by
  intro matchers
  induction matchers with
  | nil => intro _; exact ⟨true, true, [], rfl, by simp, by simp⟩
  | cons e matchers ih =>
      intro h
      obtain ⟨hinv, hend⟩ := h e List.mem_cons_self
      obtain ⟨found, aligned, matchers', hloop, hlost, hlifted⟩ :=
        ih fun x hx => h x (List.mem_cons_of_mem _ hx)
      rw [align_loop]
      by_cases hlt : ops.doc_id e < M
      · obtain ⟨b, e', hskip, hinv', hrem', hb, -⟩ :=
          V.skip_spec (t := M) hinv ((V.low_le_head hinv hend).trans hlt.le)
        simp only [if_pos hlt, hskip, Option.bind_eq_bind, Option.bind_some]
        cases b with
        | false =>
            refine ⟨false, false, e' :: matchers, rfl, fun _ => ⟨e, List.mem_cons_self, ?_⟩,
              by simp⟩
            intro d hd hle
            have hmem : d ∈ V.rem e' := hrem' ▸ Finset.mem_filter.2 ⟨hd, hle⟩
            exact absurd (hb.2 ⟨d, hmem⟩) (by simp)
        | true =>
            simp only [Bool.not_true, Bool.false_eq_true, if_false, hloop, Option.bind_some]
            refine ⟨found, _, e' :: matchers', rfl, fun hf => ?_, fun hf => ?_⟩
            · grind
            · obtain ⟨hall, haligned⟩ := hlifted hf
              refine ⟨.cons ⟨hinv', hrem'⟩ hall, fun hle => ?_⟩
              grind
      · simp only [if_neg hlt, hloop, Option.bind_eq_bind, Option.bind_some]
        refine ⟨found, aligned, e :: matchers', rfl, fun hf => ?_, fun hf => ?_⟩
        · grind
        · obtain ⟨hall, haligned⟩ := hlifted hf
          have hkeep : Lifted V M e e := by
            refine ⟨hinv, (Finset.filter_true_of_mem fun d hd => ?_).symm⟩
            have := V.head_le hinv hd
            omega
          refine ⟨.cons hkeep hall, fun hle => ?_⟩
          grind

/-- Lifting the matchers to a document that all of what remains is from keeps
what remains for all. -/
theorem meet_lifted {matchers' : List σ} (h : List.Forall₂ (Lifted V M) matchers matchers')
    (hne : matchers ≠ []) (hM : ∀ d ∈ meet V matchers, M ≤ d) :
    meet V matchers' = meet V matchers := by
  have hne' : matchers' ≠ [] := by
    rintro rfl
    exact hne (List.forall₂_nil_right_iff.1 h)
  have hmem : ∀ d, (∀ e ∈ matchers', d ∈ V.rem e) ↔ ∀ e ∈ matchers, d ∈ V.rem e ∧ M ≤ d := by
    intro d
    clear hne hne' hM
    induction h with
    | nil => simp
    | cons hlift _ ih =>
        rw [List.forall_mem_cons, List.forall_mem_cons, ih, hlift.2, Finset.mem_filter]
  ext d
  rw [mem_meet hne', hmem]
  grind [mem_meet]

/-! ## The invariant -/

/-- The states a conjunction reaches. -/
def Good (V : MatcherView ops) (m : ConjunctionMatcher σ) : Prop :=
  m.exhausted = false → m.matchers ≠ [] ∧ m.current_doc < END ∧
    ∀ e ∈ m.matchers, V.Inv e ∧ ops.doc_id e = m.current_doc

/-- What remains for a conjunction. -/
def left (V : MatcherView ops) (m : ConjunctionMatcher σ) : Finset ℕ :=
  if m.exhausted then ∅ else meet V m.matchers

theorem good_ended (h : m.exhausted = true) : Good V m ∧ left V m = ∅ :=
  ⟨fun hf => absurd (h.symm.trans hf) (by simp), if_pos h⟩

theorem Good.current_mem (h : Good V m) (hex : m.exhausted = false) :
    m.current_doc ∈ left V m := by
  obtain ⟨hne, hlt, hall⟩ := h hex
  rw [left, hex, if_neg (by simp), mem_meet hne]
  grind [View.head_mem]

theorem Good.current_le (h : Good V m) (hd : d ∈ left V m) : m.current_doc ≤ d := by
  cases hex : m.exhausted with
  | true => rw [(good_ended hex).2] at hd; cases hd
  | false =>
      obtain ⟨hne, -, hall⟩ := h hex
      rw [left, hex, if_neg (by simp), mem_meet hne] at hd
      obtain ⟨e, he⟩ := List.exists_mem_of_ne_nil _ hne
      rw [← (hall e he).2]
      exact V.head_le (hall e he).1 (hd e he)

/-- The alignment finds the first document that remains for all. A turn that
goes on leaves a matcher beyond `lo`. -/
theorem alignment_loop_spec : ∀ turns (m : ConjunctionMatcher σ) (lo : ℕ),
    m.exhausted = false → m.matchers ≠ [] → (∀ e ∈ m.matchers, V.Inv e) →
    (∃ e ∈ m.matchers, lo ≤ ops.doc_id e) → END < turns + lo →
    ∃ b m', alignment_loop ops turns m = some (b, m') ∧ Good V m' ∧
      left V m' = meet V m.matchers ∧ (b = true ↔ m'.exhausted = false) := by
  intro turns
  induction turns with
  | zero =>
      intro m lo _ _ hinv hlo hfuel
      obtain ⟨e, he, hle⟩ := hlo
      have := V.head_le_top (hinv e he)
      omega
  | succ turns ih =>
      intro m lo hex hne hinv hlo hfuel
      rw [alignment_loop]
      split
      · rename_i hnone
        obtain ⟨e, he, hend⟩ := max_doc_none hnone
        refine ⟨false, { m with exhausted := true }, rfl, (good_ended rfl).1, ?_, by simp⟩
        rw [(good_ended rfl).2, eq_comm, Finset.eq_empty_iff_forall_notMem]
        intro d hd
        have hd' := (mem_meet hne).1 hd e he
        have h1 := V.head_le (hinv e he) hd'
        have h2 := V.lt_top (hinv e he) hd'
        omega
      · rename_i M hsome
        obtain ⟨hle, e, he, heM⟩ := max_doc_some hne hsome
        have hM : M < END := by
          have h1 := (hle e he).1
          have h2 := V.head_le_top (hinv e he)
          omega
        have hfrom : ∀ d ∈ meet V m.matchers, M ≤ d := by
          intro d hd
          rw [← heM]
          exact V.head_le (hinv e he) ((mem_meet hne).1 hd e he)
        obtain ⟨found, aligned, matchers', hloop, hlost, hlifted⟩ :=
          align_loop_spec (V := V) (M := M) m.matchers fun x hx => ⟨hinv x hx, (hle x hx).1⟩
        simp only [hloop, Option.bind_eq_bind, Option.bind_some]
        cases found with
        | false =>
            refine ⟨false, _, rfl, (good_ended rfl).1, ?_, by simp⟩
            rw [(good_ended rfl).2, eq_comm, Finset.eq_empty_iff_forall_notMem]
            grind [mem_meet]
        | true =>
            obtain ⟨hall, haligned⟩ := hlifted rfl
            have hmeet := meet_lifted hall hne hfrom
            have hne' : matchers' ≠ [] := by
              rintro rfl
              exact hne (List.forall₂_nil_right_iff.1 hall)
            have hinv' : ∀ e ∈ matchers', V.Inv e ∧ M ≤ ops.doc_id e := by
              intro x hx
              obtain ⟨y, hy⟩ := exists_of_lifted hall x hx
              exact ⟨hy.1, hy.le_doc_id hM.le⟩
            cases aligned with
            | true =>
                have hat := (haligned fun x hx => (hle x hx).2).1 rfl
                have hgood : Good V { m with matchers := matchers', current_doc := M } :=
                  fun _ => ⟨hne', hM, fun x hx => ⟨(hinv' x hx).1, hat x hx⟩⟩
                exact ⟨true, _, rfl, hgood, by rw [left, hex]; exact hmeet, by simp [hex]⟩
            | false =>
                have hbeyond : ∃ x ∈ matchers', M + 1 ≤ ops.doc_id x := by grind
                have hloM : lo ≤ M := by grind
                obtain ⟨b, m', hrun, hgood, hleft, hb⟩ :=
                  ih { m with matchers := matchers' } (M + 1) hex hne'
                    (fun x hx => (hinv' x hx).1) hbeyond (by omega)
                grind

theorem advance_to_alignment_spec (hex : m.exhausted = false) (hne : m.matchers ≠ [])
    (hinv : ∀ e ∈ m.matchers, V.Inv e) :
    ∃ b m', advance_to_alignment ops m = some (b, m') ∧ Good V m' ∧
      left V m' = meet V m.matchers ∧ (b = true ↔ m'.exhausted = false) := by
  obtain ⟨e, he⟩ := List.exists_mem_of_ne_nil _ hne
  rw [advance_to_alignment, if_neg (by simp [hne, hex])]
  exact alignment_loop_spec (2 ^ 64) m 0 hex hne hinv ⟨e, he, Nat.zero_le _⟩ (by simp [END])

theorem good_new (hinv : ∀ e ∈ matchers, V.Inv e) :
    ∃ m, new ops matchers = some m ∧ Good V m ∧ left V m = meet V matchers := by
  rw [new]
  by_cases hne : matchers = []
  · subst hne
    exact ⟨_, rfl, (good_ended rfl).1, (good_ended rfl).2⟩
  · rw [if_neg (by simpa using hne)]
    obtain ⟨b, m, hrun, hgood, hleft, hb⟩ :=
      advance_to_alignment_spec (V := V)
        (m := { matchers, current_doc := 0, exhausted := false }) rfl hne hinv
    simp only [hrun, Option.bind_eq_bind, Option.bind_some]
    cases b with
    | true => exact ⟨m, rfl, hgood, hleft⟩
    | false =>
        grind [good_ended]

/-! ## The view -/

theorem Good.left_nonempty (h : Good V m) : (left V m).Nonempty ↔ m.exhausted = false := by
  cases hex : m.exhausted with
  | true => simp [(good_ended hex).2]
  | false => simpa using ⟨_, h.current_mem hex⟩

/-- Moving the first matcher on and aligning the others moves the conjunction on. -/
theorem lead_spec (call : σ → Option (Bool × σ)) (P : ℕ → Prop) [DecidablePred P]
    (h : Good V m) (hex : m.exhausted = false)
    (hcall : ∀ e, V.Inv e → ops.doc_id e = m.current_doc → ∃ b e', call e = some (b, e') ∧
      V.Inv e' ∧ V.rem e' = (V.rem e).filter P ∧ (b = true ↔ (V.rem e').Nonempty)) :
    ∃ b m', lead ops call m = some (b, m') ∧ Good V m' ∧
      left V m' = (left V m).filter P ∧ (b = true ↔ (left V m').Nonempty) := by
  obtain ⟨hne, hlt, hall⟩ := h hex
  rw [lead]
  split
  · rename_i hnil
    exact absurd hnil hne
  · rename_i first others hcons
    rw [hcons] at hall
    obtain ⟨hinv, hfirst⟩ := hall first List.mem_cons_self
    obtain ⟨b, first', hrun, hinv', hrem', hb⟩ := hcall first hinv hfirst
    have hmeet : meet V (first' :: others) = (left V m).filter P := by
      rw [left, hex, if_neg (by simp), hcons, meet, meet, hrem', Finset.filter_filter,
        Finset.filter_filter]
      grind
    simp only [hrun, Option.bind_eq_bind, Option.bind_some]
    cases b with
    | false =>
        have hempty : V.rem first' = ∅ :=
          Finset.not_nonempty_iff_eq_empty.1 fun hne => absurd (hb.2 hne) (by simp)
        refine ⟨false, _, rfl, (good_ended rfl).1, ?_, ?_⟩
        · rw [(good_ended rfl).2, ← hmeet, meet, hempty, Finset.filter_empty]
        · rw [(good_ended rfl).2]
          simp
    | true =>
        obtain ⟨b, m', hrun', hgood, hleft, hb'⟩ := advance_to_alignment_spec (V := V)
          (m := { m with matchers := first' :: others }) hex (by simp) (by grind)
        exact ⟨b, m', hrun', hgood, hleft.trans hmeet, hb'.trans hgood.left_nonempty.symm⟩

/-- The calls on a conjunction. -/
def calls (ops : MatcherOps σ) : MatcherOps (ConjunctionMatcher σ) where
  doc_id := doc_id
  is_exhausted m := m.exhausted
  next := next ops
  skip_to := skip_to ops

/-- **A conjunction enumerates the intersection.** -/
def view (V : MatcherView ops) : MatcherView (calls ops) where
  Inv := Good V
  rem := left V
  low _ := 0
  lt_top := by
    intro m d h hd
    cases hex : m.exhausted with
    | true => rw [(good_ended hex).2] at hd; cases hd
    | false =>
        obtain ⟨hne, -, hall⟩ := h hex
        obtain ⟨e, he⟩ := List.exists_mem_of_ne_nil _ hne
        rw [left, hex, if_neg (by simp), mem_meet hne] at hd
        exact V.lt_top (hall e he).1 (hd e he)
  low_le := fun _ _ => Nat.zero_le _
  head_eq := by
    intro m h
    simp only [calls, doc_id]
    cases hex : m.exhausted with
    | true => rw [if_pos rfl, (good_ended hex).2, first_empty]
    | false =>
        exact (first_eq (h.current_mem hex) fun _ hd => h.current_le hd).symm
  ended_iff := by
    intro m h
    rw [← Finset.not_nonempty_iff_eq_empty, h.left_nonempty, Bool.not_eq_false]
    rfl
  next_spec := by
    intro m h
    cases hex : m.exhausted with
    | true =>
        refine ⟨false, m, by simp [calls, next, hex], h, ?_, ?_, fun _ => Nat.zero_le _,
          fun _ => le_rfl⟩
        · rw [(good_ended hex).2, Finset.filter_empty]
        · simp [(good_ended hex).2]
    | false =>
        obtain ⟨hne, hlt, -⟩ := h hex
        obtain ⟨b, m', hrun, hgood, hleft, hb⟩ := lead_spec
          ops.next (fun d => m.current_doc < d) h hex (by
            grind [View.next_spec])
        refine ⟨b, m', ?_, hgood, ?_, hb, fun _ => Nat.zero_le _, fun _ => le_rfl⟩
        · simp [calls, next, hex, hne, hrun]
        · simp only [hleft, calls, doc_id, hex, Bool.false_eq_true, if_false]
  skip_spec := by
    intro m t h _
    by_cases hstay : m.exhausted = true ∨ t ≤ m.current_doc
    · refine ⟨! m.exhausted && decide (t ≤ m.current_doc), m, by simp [calls, skip_to, hstay], h,
        ?_, ?_, Nat.zero_le _⟩
      · rcases hstay with hex | hle
        · rw [(good_ended hex).2, Finset.filter_empty]
        · exact (Finset.filter_true_of_mem fun d hd => hle.trans (h.current_le hd)).symm
      · rw [h.left_nonempty]
        grind
    · rw [not_or, Bool.not_eq_true] at hstay
      obtain ⟨hex, hlt⟩ := hstay
      obtain ⟨b, m', hrun, hgood, hleft, hb⟩ := lead_spec
        (fun first => ops.skip_to first t) (fun d => t ≤ d) h hex (by
          intro e hinv hat
          have hend : ops.doc_id e ≠ END := by
            rw [hat]
            exact (h hex).2.1.ne
          have hlow := V.low_le_head hinv hend
          obtain ⟨b, e', hrun, hinv', hrem', hb, -⟩ := V.skip_spec (t := t) hinv (by omega)
          exact ⟨b, e', hrun, hinv', hrem', hb⟩)
      refine ⟨b, m', ?_, hgood, hleft, hb, Nat.zero_le _⟩
      simp [calls, skip_to, hex, hlt, hrun]

end ConjunctionMatcher

end Laurus
