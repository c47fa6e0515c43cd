import Laurus.Matcher.Helpers.Leaves

/-!
# The excluding combinators are ordered cursors

`ConjunctionNotMatcher` walks its positive matcher and drops what a negative
is on; `NotMatcher` walks the numbers below its bound. In both a negative is
only ever sent on to the document that is asked about, so it has not passed
a document that remains.
-/

namespace Laurus

variable {σ : Type} {ops : MatcherOps σ} (V : MatcherView ops)

/-! ## Asking a cursor about a document -/

/-- The cursor `e'` is `e`, moved on no further than `doc_id`. -/
def Trailing (V : MatcherView ops) (doc_id : ℕ) (e e' : σ) : Prop :=
  V.Inv e' ∧ ∀ d, doc_id ≤ d → (d ∈ V.rem e' ↔ d ∈ V.rem e)

section Trailing

variable {V} {d doc_id : ℕ} {e e' : σ}

theorem doc_id_eq_iff (hinv : V.Inv e) (hend : doc_id < END) (hle : doc_id ≤ ops.doc_id e) :
    ops.doc_id e = doc_id ↔ doc_id ∈ V.rem e := by
  constructor
  · rintro rfl
    exact V.head_mem hinv hend.ne
  · intro hd
    have := V.head_le hinv hd
    omega

theorem trailing_skip (doc_id : ℕ) (hinv : V.Inv e) (hlt : ops.doc_id e < doc_id) (hend : doc_id ≤ END) :
    ∃ b e', ops.skip_to e doc_id = some (b, e') ∧ Trailing V doc_id e e' ∧
      doc_id ≤ ops.doc_id e' := by
  have hlow := V.low_le_head hinv (by omega)
  obtain ⟨b, e', hskip, hinv', hrem', -⟩ := V.skip_spec (t := doc_id) hinv (by omega)
  have hmem : ∀ d, d ∈ V.rem e' ↔ d ∈ V.rem e ∧ doc_id ≤ d := fun d => by
    rw [hrem', Finset.mem_filter]
  refine ⟨b, e', hskip, ⟨hinv', fun d hd => ?_⟩, ?_⟩
  · rw [hmem]
    exact and_iff_left hd
  · rw [V.head_eq hinv']
    exact le_first hend fun d hd => ((hmem d).1 hd).2

theorem Trailing.refl (hinv : V.Inv e) : Trailing V doc_id e e := ⟨hinv, fun _ _ => Iff.rfl⟩

end Trailing

/-! ## A conjunction with negatives -/

namespace ConjunctionNotMatcher

variable {V} {d doc : ℕ} {negatives : List σ} {m : ConjunctionNotMatcher σ}

/-- Some negative still has the document. -/
def excluded (V : MatcherView ops) (negatives : List σ) (d : ℕ) : Prop :=
  ∃ e ∈ negatives, d ∈ V.rem e

instance : DecidablePred (excluded V negatives) := fun d =>
  inferInstanceAs (Decidable (∃ e ∈ negatives, d ∈ V.rem e))

theorem excluded_cons {e : σ} :
    excluded V (e :: negatives) d ↔ d ∈ V.rem e ∨ excluded V negatives d := by
  simp [excluded]

/-- `is_excluded` says whether a negative has the document, and forgets of
them nothing from there on. -/
theorem is_excluded_spec (hend : doc < END) : ∀ negatives : List σ,
    (∀ e ∈ negatives, V.Inv e) → ∃ b negatives', is_excluded ops doc negatives =
      some (b, negatives') ∧ (∀ e ∈ negatives', V.Inv e) ∧
      (b = true ↔ excluded V negatives doc) ∧
      ∀ d, doc ≤ d → (excluded V negatives' d ↔ excluded V negatives d) := by
  intro negatives
  induction negatives with
  | nil => intro _; exact ⟨false, [], rfl, by simp, by simp [excluded], fun _ _ => Iff.rfl⟩
  | cons e negatives ih =>
      intro hinv
      have hothers : ∀ x ∈ negatives, V.Inv x := fun x hx => hinv x (List.mem_cons_of_mem _ hx)
      obtain ⟨b, negatives', hloop, hinv', hb, hkeep⟩ := ih hothers
      obtain ⟨e', hmove, htrail, hle⟩ : ∃ e',
          catch_up ops doc e = some e' ∧ Trailing V doc e e' ∧ doc ≤ ops.doc_id e' := by
        rw [catch_up]
        by_cases hlt : ops.doc_id e < doc
        · grind [trailing_skip, List.mem_cons_self]
        · exact ⟨e, if_neg hlt, .refl (hinv e List.mem_cons_self), by omega⟩
      have hon := (doc_id_eq_iff htrail.1 hend hle).trans (htrail.2 doc le_rfl)
      rw [is_excluded]
      simp only [hmove, Option.bind_eq_bind, Option.bind_some]
      by_cases hat : ops.doc_id e' = doc
      · simp only [if_pos hat]
        refine ⟨true, e' :: negatives, rfl, ?_, ?_, fun d hd => ?_⟩
        · rw [List.forall_mem_cons]
          exact ⟨htrail.1, hothers⟩
        · simpa using excluded_cons.2 (Or.inl (hon.1 hat))
        · rw [excluded_cons, excluded_cons, htrail.2 d hd]
      · simp only [if_neg hat, hloop, Option.bind_some]
        refine ⟨b, e' :: negatives', rfl, ?_, ?_, fun d hd => ?_⟩
        · rw [List.forall_mem_cons]
          exact ⟨htrail.1, hinv'⟩
        · rw [excluded_cons, hb, or_iff_right fun h => hat (hon.2 h)]
        · rw [excluded_cons, excluded_cons, htrail.2 d hd, hkeep d hd]

/-- What remains of the positive matcher that no negative has. -/
def valid (V : MatcherView ops) (m : ConjunctionNotMatcher σ) : Finset ℕ :=
  (V.rem m.positive).filter fun d => ¬ excluded V m.negatives d

/-- What remains. -/
def left (V : MatcherView ops) (m : ConjunctionNotMatcher σ) : Finset ℕ :=
  if m.exhausted then ∅ else valid V m

/-- The states a conjunction with negatives reaches. -/
def Good (V : MatcherView ops) (m : ConjunctionNotMatcher σ) : Prop :=
  m.exhausted = false → V.Inv m.positive ∧ (∀ e ∈ m.negatives, V.Inv e) ∧
    m.current_doc = ops.doc_id m.positive ∧ m.current_doc ∈ valid V m

theorem good_ended (h : m.exhausted = true) : Good V m ∧ left V m = ∅ :=
  ⟨fun hf => absurd (h.symm.trans hf) (by simp), if_pos h⟩

theorem Good.current_mem (h : Good V m) (hex : m.exhausted = false) :
    m.current_doc ∈ left V m := by
  rw [left, hex, if_neg (by simp)]
  exact (h hex).2.2.2

theorem Good.current_le (h : Good V m) (hd : d ∈ left V m) : m.current_doc ≤ d := by
  cases hex : m.exhausted with
  | true => rw [(good_ended hex).2] at hd; cases hd
  | false =>
      obtain ⟨hinv, -, hcur, -⟩ := h hex
      rw [left, hex, if_neg (by simp), valid, Finset.mem_filter] at hd
      rw [hcur]
      exact V.head_le hinv hd.1

theorem Good.left_nonempty (h : Good V m) : (left V m).Nonempty ↔ m.exhausted = false := by
  cases hex : m.exhausted with
  | true => simp [(good_ended hex).2]
  | false => simpa using ⟨_, h.current_mem hex⟩

/-- The loop finds the first document that no negative has. A turn that goes
on moves the positive matcher past a document. -/
theorem valid_loop_spec : ∀ turns (m : ConjunctionNotMatcher σ), m.exhausted = false →
    V.Inv m.positive → (∀ e ∈ m.negatives, V.Inv e) →
    END < turns + ops.doc_id m.positive →
    ∃ b m', valid_loop ops turns m = some (b, m') ∧ Good V m' ∧ left V m' = valid V m ∧
      (b = true ↔ m'.exhausted = false) := by
  intro turns
  induction turns with
  | zero =>
      intro m _ hinv _ hfuel
      have := V.head_le_top hinv
      omega
  | succ turns ih =>
      intro m hex hinv hneg hfuel
      have hended : ∀ m' : ConjunctionNotMatcher σ, valid V m = ∅ →
          Good V m'.ended ∧ left V m'.ended = valid V m := fun m' hempty =>
        ⟨(good_ended rfl).1, (good_ended rfl).2.trans hempty.symm⟩
      rw [valid_loop]
      by_cases hexp : ops.is_exhausted m.positive = true
      · have hempty : valid V m = ∅ := by
          rw [valid, (V.ended_iff hinv).1 hexp, Finset.filter_empty]
        rw [if_pos hexp]
        grind [ended]
      rw [if_neg hexp]
      have hne : (V.rem m.positive).Nonempty :=
        Finset.nonempty_iff_ne_empty.2 fun h => hexp ((V.ended_iff hinv).2 h)
      have hmem : ops.doc_id m.positive ∈ V.rem m.positive := by
        rw [V.head_eq hinv]
        exact first_mem hne
      have hlt : ops.doc_id m.positive < END := V.lt_top hinv hmem
      obtain ⟨b, negatives', hloop, hneg', hb, hkeep⟩ := is_excluded_spec (V := V) hlt _ hneg
      simp only [if_neg hlt.ne, hloop, Option.bind_eq_bind, Option.bind_some]
      -- what the negatives have forgotten is behind the positive matcher
      have hvalid : ∀ d ∈ V.rem m.positive,
          (excluded V negatives' d ↔ excluded V m.negatives d) := fun d hd =>
        hkeep d (V.head_le hinv hd)
      cases b with
      | false =>
          have hnot : ¬ excluded V m.negatives (ops.doc_id m.positive) := fun h =>
            absurd (hb.2 h) (by simp)
          have hsame : valid V { m with negatives := negatives' } = valid V m :=
            Finset.filter_congr fun d hd => not_congr (hvalid d hd)
          refine ⟨true, { m with negatives := negatives', current_doc := ops.doc_id m.positive },
            rfl, fun _ => ⟨hinv, hneg', rfl, ?_⟩, ?_, by simp [hex]⟩
          · exact Finset.mem_filter.2 ⟨hmem, fun h => hnot ((hvalid _ hmem).1 h)⟩
          · rw [left, hex]
            exact hsame
      | true =>
          obtain ⟨more, positive', hnext, hinv', hrem', hmore, -⟩ := V.next_spec hinv
          have hafter : valid V { m with positive := positive', negatives := negatives' } =
              valid V m := by
            grind [valid, View.head_le]
          simp only [Bool.not_true, Bool.false_eq_true, if_false, hnext, Option.bind_some]
          cases more with
          | false =>
              have hempty : valid V m = ∅ := by
                grind [valid]
              exact ⟨false, _, rfl, (hended _ hempty).1, (hended _ hempty).2, by simp [ended]⟩
          | true =>
              have hhead : ops.doc_id m.positive < ops.doc_id positive' := by
                have hmem' : first END (V.rem positive') ∈ V.rem positive' := first_mem (hmore.1 rfl)
                rw [← V.head_eq hinv'] at hmem'
                grind
              obtain ⟨b, m', hrun, hgood, hleft, hb'⟩ :=
                ih { m with positive := positive', negatives := negatives' } hex hinv' hneg' (by
                  simp only
                  omega)
              grind

theorem advance_to_next_valid_spec (hex : m.exhausted = false) (hinv : V.Inv m.positive)
    (hneg : ∀ e ∈ m.negatives, V.Inv e) :
    ∃ b m', advance_to_next_valid ops m = some (b, m') ∧ Good V m' ∧ left V m' = valid V m ∧
      (b = true ↔ m'.exhausted = false) := by
  have hfuel : END < 2 ^ 64 + ops.doc_id m.positive := by
    rw [END]
    omega
  exact valid_loop_spec (2 ^ 64) m hex hinv hneg hfuel

/-- A new one remains to visit what the positive matcher does and no negative. -/
theorem good_new {positive : σ} (hinv : V.Inv positive) (hneg : ∀ e ∈ negatives, V.Inv e) :
    ∃ m, new ops positive negatives = some m ∧ Good V m ∧
      left V m = (V.rem positive).filter fun d => ¬ excluded V negatives d := by
  obtain ⟨b, m, hrun, hgood, hleft, hb⟩ := advance_to_next_valid_spec (V := V)
    (m := { positive, negatives, current_doc := 0, exhausted := false }) rfl hinv hneg
  rw [new]
  simp only [hrun, Option.bind_eq_bind, Option.bind_some]
  cases b with
  | true => exact ⟨m, rfl, hgood, hleft⟩
  | false =>
      have hend : m.exhausted = true := by simpa using hb
      refine ⟨m.ended, rfl, (good_ended rfl).1, ?_⟩
      have hvalid := hleft
      rw [(good_ended hend).2] at hvalid
      rw [(good_ended rfl).2, hvalid]
      rfl

theorem lead_spec (call : σ → Option (Bool × σ)) (P : ℕ → Prop) [DecidablePred P]
    (h : Good V m) (hex : m.exhausted = false)
    (hcall : ∃ b e', call m.positive = some (b, e') ∧ V.Inv e' ∧
      V.rem e' = (V.rem m.positive).filter P ∧ (b = true ↔ (V.rem e').Nonempty)) :
    ∃ b m', lead ops call m = some (b, m') ∧ Good V m' ∧
      left V m' = (left V m).filter P ∧ (b = true ↔ (left V m').Nonempty) := by
  obtain ⟨-, hneg, -⟩ := h hex
  obtain ⟨b, positive', hrun, hinv', hrem', hb⟩ := hcall
  have hvalid : valid V { m with positive := positive' } = (left V m).filter P := by
    rw [left, hex, if_neg (by simp), valid, valid, hrem', Finset.filter_filter,
      Finset.filter_filter]
    grind
  rw [lead]
  simp only [hrun, Option.bind_eq_bind, Option.bind_some]
  cases b with
  | false =>
      have hempty : (left V m).filter P = ∅ := by
        grind [valid]
      refine ⟨false, _, rfl, (good_ended rfl).1, ?_, ?_⟩
      · rw [(good_ended rfl).2, hempty]
      · rw [(good_ended rfl).2]
        simp
  | true =>
      obtain ⟨b, m', hrun', hgood, hleft, hb'⟩ :=
        advance_to_next_valid_spec (V := V) (m := { m with positive := positive' }) hex hinv' hneg
      exact ⟨b, m', hrun', hgood, hleft.trans hvalid, hb'.trans hgood.left_nonempty.symm⟩

/-- The calls on a conjunction with negatives. -/
def calls (ops : MatcherOps σ) : MatcherOps (ConjunctionNotMatcher σ) where
  doc_id := doc_id
  is_exhausted m := m.exhausted
  next := next ops
  skip_to := skip_to ops

/-- **A conjunction with negatives enumerates the difference.** -/
def view (V : MatcherView ops) : MatcherView (calls ops) where
  Inv := Good V
  rem := left V
  low _ := 0
  lt_top := by
    intro m d h hd
    cases hex : m.exhausted with
    | true => rw [(good_ended hex).2] at hd; cases hd
    | false =>
        rw [left, hex, if_neg (by simp), valid, Finset.mem_filter] at hd
        exact V.lt_top (h hex).1 hd.1
  low_le := fun _ _ => Nat.zero_le _
  head_eq := by
    intro m h
    simp only [calls, ConjunctionNotMatcher.doc_id]
    cases hex : m.exhausted with
    | true => rw [if_pos rfl, (good_ended hex).2, first_empty]
    | false =>
        exact (first_eq (h.current_mem hex) fun _ hd => h.current_le hd).symm
  ended_iff := by
    intro m h
    rw [← Finset.not_nonempty_iff_eq_empty, h.left_nonempty, Bool.not_eq_false]
    rfl
  next_spec := by
    intro m h
    cases hex : m.exhausted with
    | true =>
        refine ⟨false, m, by simp [calls, next, hex], h, ?_, ?_, fun _ => Nat.zero_le _,
          fun _ => le_rfl⟩
        · rw [(good_ended hex).2, Finset.filter_empty]
        · simp [(good_ended hex).2]
    | false =>
        obtain ⟨hinv, -, hcur, -⟩ := h hex
        obtain ⟨b, m', hrun, hgood, hleft, hb⟩ := lead_spec
          ops.next (fun d => m.current_doc < d) h hex (by
            grind [View.next_spec])
        refine ⟨b, m', ?_, hgood, ?_, hb, fun _ => Nat.zero_le _, fun _ => le_rfl⟩
        · simp [calls, next, hex, hrun]
        · simp only [hleft, calls, ConjunctionNotMatcher.doc_id, hex, Bool.false_eq_true, if_false]
  skip_spec := by
    intro m t h _
    by_cases hstay : m.exhausted = true ∨ t ≤ m.current_doc
    · refine ⟨! m.exhausted && decide (t ≤ m.current_doc), m, by simp [calls, skip_to, hstay], h,
        ?_, ?_, Nat.zero_le _⟩
      · rcases hstay with hex | hle
        · rw [(good_ended hex).2, Finset.filter_empty]
        · exact (Finset.filter_true_of_mem fun d hd => hle.trans (h.current_le hd)).symm
      · rw [h.left_nonempty]
        grind
    · rw [not_or, Bool.not_eq_true] at hstay
      obtain ⟨hex, hlt⟩ := hstay
      obtain ⟨hinv, -, hcur, hmem⟩ := h hex
      obtain ⟨b, m', hrun, hgood, hleft, hb⟩ := lead_spec
        (fun positive => ops.skip_to positive t) (fun d => t ≤ d) h hex (by
          have hend := V.lt_top hinv (Finset.mem_filter.1 hmem).1
          have hlow := V.low_le_head hinv (hcur ▸ hend.ne)
          obtain ⟨b, e', hrun, hinv', hrem', hb, -⟩ := V.skip_spec (t := t) hinv (by omega)
          exact ⟨b, e', hrun, hinv', hrem', hb⟩)
      refine ⟨b, m', ?_, hgood, hleft, hb, Nat.zero_le _⟩
      simp [calls, skip_to, hex, hlt, hrun]

end ConjunctionNotMatcher

/-! ## The complement -/

namespace NotMatcher

variable {V} {d : ℕ} {m : NotMatcher σ}

/-- The numbers from the current one on that the negative does not have. -/
def valid (V : MatcherView ops) (m : NotMatcher σ) : Finset ℕ :=
  (Finset.Ico m.current_doc m.max_doc).filter fun d => d ∉ V.rem m.negative

theorem mem_valid :
    d ∈ valid V m ↔ (m.current_doc ≤ d ∧ d < m.max_doc) ∧ d ∉ V.rem m.negative := by
  rw [valid, Finset.mem_filter, Finset.mem_Ico]

/-- What remains. -/
def left (V : MatcherView ops) (m : NotMatcher σ) : Finset ℕ :=
  if m.exhausted then ∅ else valid V m

/-- The states a complement reaches. -/
def Good (V : MatcherView ops) (m : NotMatcher σ) : Prop :=
  m.exhausted = false → m.max_doc ≤ END ∧ V.Inv m.negative ∧ m.current_doc ∈ valid V m

theorem good_ended (h : m.exhausted = true) : Good V m ∧ left V m = ∅ :=
  ⟨fun hf => absurd (h.symm.trans hf) (by simp), if_pos h⟩

theorem Good.current_mem (h : Good V m) (hex : m.exhausted = false) :
    m.current_doc ∈ left V m := by
  rw [left, hex, if_neg (by simp)]
  exact (h hex).2.2

theorem Good.current_le (hd : d ∈ left V m) : m.current_doc ≤ d := by
  cases hex : m.exhausted with
  | true => rw [(good_ended hex).2] at hd; cases hd
  | false =>
      rw [left, hex, if_neg (by simp), mem_valid] at hd
      exact hd.1.1

theorem Good.left_nonempty (h : Good V m) : (left V m).Nonempty ↔ m.exhausted = false := by
  cases hex : m.exhausted with
  | true => simp [(good_ended hex).2]
  | false => simpa using ⟨_, h.current_mem hex⟩

theorem Good.lt_max (h : Good V m) (hex : m.exhausted = false) : m.current_doc < m.max_doc :=
  (mem_valid.1 (h hex).2.2).1.2

/-- The loop finds the first number that the negative does not have. A turn
passes a number, or brings the negative to the current one. -/
theorem valid_loop_spec : ∀ turns (m : NotMatcher σ), m.exhausted = false → m.max_doc ≤ END →
    V.Inv m.negative →
    2 * (m.max_doc - m.current_doc) +
      (if ops.doc_id m.negative < m.current_doc then 1 else 0) < turns →
    ∃ b m', valid_loop ops turns m = some (b, m') ∧ Good V m' ∧ left V m' = valid V m ∧
      (b = true ↔ m'.exhausted = false) := by
  intro turns
  induction turns with
  | zero => intro m _ _ _ hfuel; omega
  | succ turns ih =>
      intro m hex hmax hinv hfuel
      rw [valid_loop]
      by_cases hlt : m.current_doc < m.max_doc
      · simp only [if_pos hlt]
        have hend : m.current_doc < END := by omega
        split
        · rename_i hahead
          have hnot : m.current_doc ∉ V.rem m.negative := by
            grind [View.head_le]
          refine ⟨true, m, rfl, fun _ => ⟨hmax, hinv, mem_valid.2 ⟨⟨le_rfl, hlt⟩, hnot⟩⟩, ?_,
            by simp [hex]⟩
          rw [left, hex]
          rfl
        · rename_i hahead
          split
          · rename_i hat
            -- the current number is excluded, and the negative is sent on past it
            have hmem : m.current_doc ∈ V.rem m.negative := by
              rw [← hat]
              exact V.head_mem hinv (by omega)
            have hlive : ops.is_exhausted m.negative = false := by
              rw [← Bool.not_eq_true, V.ended_iff hinv]
              exact Finset.ne_empty_of_mem hmem
            obtain ⟨b, negative', hskip, htrail, hle⟩ :=
              trailing_skip (m.current_doc + 1) hinv (by omega) (by omega)
            simp only [show ops.doc_id m.negative < m.current_doc + 1 by omega, hlive,
              decide_true, Bool.not_false, Bool.and_self, if_true, hskip, Option.bind_eq_bind,
              Option.bind_some]
            obtain ⟨b, m', hrun, hgood, hleft, hb⟩ :=
              ih { m with current_doc := m.current_doc + 1, negative := negative' } hex hmax
                htrail.1 (by grind)
            refine ⟨b, m', hrun, hgood, hleft.trans ?_, hb⟩
            ext d
            simp only [mem_valid]
            constructor
            · rintro ⟨⟨hd, hdm⟩, hnot⟩
              exact ⟨⟨by omega, hdm⟩, fun h => hnot ((htrail.2 d hd).2 h)⟩
            · rintro ⟨⟨hd, hdm⟩, hnot⟩
              have hne : d ≠ m.current_doc := fun h => hnot (h ▸ hmem)
              exact ⟨⟨by omega, hdm⟩, fun h => hnot ((htrail.2 d (by omega)).1 h)⟩
          · rename_i hat
            obtain ⟨b, negative', hskip, htrail, hle⟩ :=
              trailing_skip m.current_doc hinv (by omega) hend.le
            simp only [hskip, Option.bind_eq_bind, Option.bind_some]
            obtain ⟨b, m', hrun, hgood, hleft, hb⟩ :=
              ih { m with negative := negative' } hex hmax htrail.1 (by grind)
            refine ⟨b, m', hrun, hgood, hleft.trans ?_, hb⟩
            ext d
            simp only [mem_valid]
            exact and_congr_right fun h => not_congr (htrail.2 d h.1)
      · rw [if_neg hlt]
        refine ⟨false, _, rfl, (good_ended rfl).1, ?_, by simp⟩
        rw [(good_ended rfl).2, eq_comm, Finset.eq_empty_iff_forall_notMem]
        intro d hd
        have := (mem_valid.1 hd).1
        omega

theorem advance_to_next_valid_spec (hex : m.exhausted = false) (hmax : m.max_doc ≤ END)
    (hinv : V.Inv m.negative) :
    ∃ b m', advance_to_next_valid ops m = some (b, m') ∧ Good V m' ∧ left V m' = valid V m ∧
      (b = true ↔ m'.exhausted = false) := by
  have hfuel : 2 * (m.max_doc - m.current_doc) +
      (if ops.doc_id m.negative < m.current_doc then 1 else 0) < 2 ^ 65 := by
    rw [END] at hmax
    split <;> omega
  exact valid_loop_spec (2 ^ 65) m hex hmax hinv hfuel

/-- A new complement remains to visit what the negative does not, below the bound. -/
theorem good_new {negative : σ} {max_doc : ℕ} (hinv : V.Inv negative) (hmax : max_doc ≤ END) :
    ∃ m, new ops negative max_doc = some m ∧ Good V m ∧
      left V m = (Finset.range max_doc).filter fun d => d ∉ V.rem negative := by
  obtain ⟨b, m, hrun, hgood, hleft, hb⟩ := advance_to_next_valid_spec (V := V)
    (m := { negative, max_doc, current_doc := 0, exhausted := false }) rfl hmax hinv
  have hvalid : left V m = (Finset.range max_doc).filter fun d => d ∉ V.rem negative := by
    rw [hleft]
    ext d
    simp [mem_valid]
  rw [new]
  simp only [hrun, Option.bind_eq_bind, Option.bind_some]
  cases b with
  | true => exact ⟨m, rfl, hgood, hvalid⟩
  | false =>
      grind [good_ended]

/-- The calls on a complement. -/
def calls (ops : MatcherOps σ) : MatcherOps (NotMatcher σ) where
  doc_id := doc_id
  is_exhausted := is_exhausted
  next := next ops
  skip_to := skip_to ops

/-- **A complement enumerates what its matcher does not have below its bound.** -/
def view (V : MatcherView ops) : MatcherView (calls ops) where
  Inv := Good V
  rem := left V
  low _ := 0
  lt_top := by
    intro m d h hd
    cases hex : m.exhausted with
    | true => rw [(good_ended hex).2] at hd; cases hd
    | false =>
        rw [left, hex, if_neg (by simp), mem_valid] at hd
        exact lt_of_lt_of_le hd.1.2 (h hex).1
  low_le := fun _ _ => Nat.zero_le _
  head_eq := by
    intro m h
    simp only [calls, doc_id]
    cases hex : m.exhausted with
    | true => rw [if_pos (by simp), (good_ended hex).2, first_empty]
    | false =>
        have hlt := h.lt_max hex
        rw [if_neg (by simpa using hlt)]
        exact (first_eq (h.current_mem hex) fun _ hd => Good.current_le hd).symm
  ended_iff := by
    intro m h
    rw [← Finset.not_nonempty_iff_eq_empty, h.left_nonempty, Bool.not_eq_false]
    simp only [calls, is_exhausted, Bool.or_eq_true, decide_eq_true_eq]
    grind [Good.lt_max]
  next_spec := by
    intro m h
    cases hex : m.exhausted with
    | true =>
        refine ⟨false, m, by simp [calls, next, hex], h, ?_, ?_, fun _ => Nat.zero_le _,
          fun _ => le_rfl⟩
        · rw [(good_ended hex).2, Finset.filter_empty]
        · simp [(good_ended hex).2]
    | false =>
        obtain ⟨hmax, hinv, -⟩ := h hex
        have hlt := h.lt_max hex
        obtain ⟨b, m', hrun, hgood, hleft, hb⟩ := advance_to_next_valid_spec (V := V)
          (m := { m with current_doc := m.current_doc + 1 }) hex hmax hinv
        refine ⟨b, m', ?_, hgood, ?_, hb.trans hgood.left_nonempty.symm, fun _ => Nat.zero_le _,
          fun _ => le_rfl⟩
        · simp only [calls, next, hex, Bool.false_eq_true, false_or, if_neg (Nat.not_le.2 hlt)]
          exact hex ▸ hrun
        · rw [hleft]
          ext d
          simp only [calls, doc_id, left, hex, Finset.mem_filter, mem_valid, Bool.false_eq_true,
            false_or, if_false, if_neg (show ¬ m.max_doc ≤ m.current_doc by omega)]
          grind
  skip_spec := by
    intro m t h _
    by_cases hstay : m.exhausted = true ∨ t ≤ m.current_doc
    · refine ⟨! m.exhausted && decide (m.current_doc < m.max_doc), m,
        by simp [calls, skip_to, hstay], h, ?_, ?_, Nat.zero_le _⟩
      · rcases hstay with hex | hle
        · rw [(good_ended hex).2, Finset.filter_empty]
        · exact (Finset.filter_true_of_mem fun d hd => hle.trans (Good.current_le hd)).symm
      · rw [h.left_nonempty]
        cases hex : m.exhausted with
        | true => simp
        | false => simp [h.lt_max hex]
    · have hgo := hstay
      rw [not_or, Bool.not_eq_true] at hstay
      obtain ⟨hex, hlt⟩ := hstay
      obtain ⟨hmax, hinv, -⟩ := h hex
      by_cases hpast : m.max_doc ≤ t
      · have hempty : (left V m).filter (fun d => t ≤ d) = ∅ := by
          rw [Finset.eq_empty_iff_forall_notMem]
          intro d hd
          rw [Finset.mem_filter, left, hex, if_neg (by simp), mem_valid] at hd
          omega
        refine ⟨false, { m with current_doc := m.max_doc, exhausted := true },
          by simp only [calls, skip_to, if_neg hgo, if_pos hpast], (good_ended rfl).1, ?_, ?_,
          Nat.zero_le _⟩
        · rw [hempty, (good_ended rfl).2]
        · rw [(good_ended rfl).2]
          simp
      · obtain ⟨b, m', hrun, hgood, hleft, hb⟩ := advance_to_next_valid_spec (V := V)
          (m := { m with current_doc := t }) hex hmax hinv
        refine ⟨b, m', ?_, hgood, ?_, hb.trans hgood.left_nonempty.symm, Nat.zero_le _⟩
        · simp only [calls, skip_to, if_neg hgo, if_neg hpast, hrun]
        · rw [hleft]
          ext d
          simp only [left, hex, Finset.mem_filter, mem_valid, Bool.false_eq_true, if_false]
          grind

end NotMatcher

end Laurus
