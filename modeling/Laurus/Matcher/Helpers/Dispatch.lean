import Laurus.Matcher.Helpers.Conjunction
import Laurus.Matcher.Helpers.Disjunction
import Laurus.Matcher.Helpers.Exclusion

/-!
# Trees of matchers are ordered cursors

A node answers as its combinator does over its children, so the views of the
combinators make one of every tree, by recursion on its depth. `At` says that
a matcher is at the start of a set of documents, and each constructor has its
rule for it.
-/

namespace Laurus

namespace Matcher

variable {ops : MatcherOps Matcher} (V : MatcherView ops)

/-- The invariant of a node whose children are in view `V`. -/
def Inv : Matcher → Prop
  | empty => True
  | all m => AllMatcher.view.Inv m
  | posting m => PostingMatcher.view.Inv m
  | precomputed m => PreComputedMatcher.view.Inv m
  | disjunction m => (DisjunctionMatcher.view V).Inv m
  | conjunction m => (ConjunctionMatcher.view V).Inv m
  | conjunction_not m => (ConjunctionNotMatcher.view V).Inv m
  | not m => (NotMatcher.view V).Inv m

/-- What remains for a node. -/
def rem : Matcher → Finset ℕ
  | empty => ∅
  | all m => AllMatcher.view.rem m
  | posting m => PostingMatcher.view.rem m
  | precomputed m => PreComputedMatcher.view.rem m
  | disjunction m => (DisjunctionMatcher.view V).rem m
  | conjunction m => (ConjunctionMatcher.view V).rem m
  | conjunction_not m => (ConjunctionNotMatcher.view V).rem m
  | not m => (NotMatcher.view V).rem m

/-- How far back a node may be sent: only `AllMatcher` may not go anywhere. -/
def low : Matcher → ℕ
  | all m => m.current_doc
  | _ => 0

theorem wrap_spec {α : Type} {node : α → Matcher} {call : Option (Bool × α)}
    {Q : Bool → Matcher → Prop} (h : ∃ b m, call = some (b, m) ∧ Q b (node m)) :
    ∃ b m, wrap node call = some (b, m) ∧ Q b m := by
  obtain ⟨b, m, hcall, hm⟩ := h
  exact ⟨b, node m, by rw [hcall]; rfl, hm⟩

/-- A node over children in view `V` is an ordered cursor. -/
def nodeView : View END doc_id is_exhausted (next ops) (skip_to ops) where
  Inv := Inv V
  rem := rem V
  low := low
  lt_top := by
    intro m d h hd
    cases m with
    | empty => cases hd
    | all m => exact AllMatcher.view.lt_top h hd
    | posting m => exact PostingMatcher.view.lt_top h hd
    | precomputed m => exact PreComputedMatcher.view.lt_top h hd
    | disjunction m => exact (DisjunctionMatcher.view V).lt_top h hd
    | conjunction m => exact (ConjunctionMatcher.view V).lt_top h hd
    | conjunction_not m => exact (ConjunctionNotMatcher.view V).lt_top h hd
    | not m => exact (NotMatcher.view V).lt_top h hd
  low_le := by
    intro m d h hd
    cases m with
    | all m => exact AllMatcher.view.low_le h hd
    | _ => exact Nat.zero_le _
  head_eq := by
    intro m h
    cases m with
    | empty => exact first_empty.symm
    | all m => exact AllMatcher.view.head_eq h
    | posting m => exact PostingMatcher.view.head_eq h
    | precomputed m => exact PreComputedMatcher.view.head_eq h
    | disjunction m => exact (DisjunctionMatcher.view V).head_eq h
    | conjunction m => exact (ConjunctionMatcher.view V).head_eq h
    | conjunction_not m => exact (ConjunctionNotMatcher.view V).head_eq h
    | not m => exact (NotMatcher.view V).head_eq h
  ended_iff := by
    intro m h
    cases m with
    | empty => simp [is_exhausted, rem]
    | all m => exact AllMatcher.view.ended_iff h
    | posting m => exact PostingMatcher.view.ended_iff h
    | precomputed m => exact PreComputedMatcher.view.ended_iff h
    | disjunction m => exact (DisjunctionMatcher.view V).ended_iff h
    | conjunction m => exact (ConjunctionMatcher.view V).ended_iff h
    | conjunction_not m => exact (ConjunctionNotMatcher.view V).ended_iff h
    | not m => exact (NotMatcher.view V).ended_iff h
  next_spec := by
    intro m h
    cases m with
    | empty => exact ⟨false, empty, rfl, trivial, rfl, by simp [rem], by simp, by simp⟩
    | all m => exact wrap_spec (AllMatcher.view.next_spec h)
    | posting m => exact wrap_spec (PostingMatcher.view.next_spec h)
    | precomputed m => exact wrap_spec (PreComputedMatcher.view.next_spec h)
    | disjunction m => exact wrap_spec ((DisjunctionMatcher.view V).next_spec h)
    | conjunction m => exact wrap_spec ((ConjunctionMatcher.view V).next_spec h)
    | conjunction_not m => exact wrap_spec ((ConjunctionNotMatcher.view V).next_spec h)
    | not m => exact wrap_spec ((NotMatcher.view V).next_spec h)
  skip_spec := by
    intro m t h hlow
    cases m with
    | empty => exact ⟨false, empty, rfl, trivial, rfl, by simp [rem], by simp⟩
    | all m => exact wrap_spec (AllMatcher.view.skip_spec h hlow)
    | posting m => exact wrap_spec (PostingMatcher.view.skip_spec h hlow)
    | precomputed m => exact wrap_spec (PreComputedMatcher.view.skip_spec h hlow)
    | disjunction m => exact wrap_spec ((DisjunctionMatcher.view V).skip_spec h hlow)
    | conjunction m => exact wrap_spec ((ConjunctionMatcher.view V).skip_spec h hlow)
    | conjunction_not m => exact wrap_spec ((ConjunctionNotMatcher.view V).skip_spec h hlow)
    | not m => exact wrap_spec ((NotMatcher.view V).skip_spec h hlow)

/-- **Trees of every depth are ordered cursors.** -/
def treeView : (depth : ℕ) → MatcherView (Matcher.ops depth)
  | 0 =>
    { Inv := fun _ => False
      rem := fun _ => ∅
      low := fun _ => 0
      lt_top := fun h _ => h.elim
      low_le := fun h _ => h.elim
      head_eq := fun h => h.elim
      ended_iff := fun h => h.elim
      next_spec := fun h => h.elim
      skip_spec := fun h _ => h.elim }
  | depth + 1 => nodeView (treeView depth)

/-! ## Deeper views -/

/-- The view `V'` holds of whatever `V` does, with the same documents left. -/
def Extends {ops ops' : MatcherOps Matcher} (V : MatcherView ops) (V' : MatcherView ops') : Prop :=
  ops'.doc_id = ops.doc_id ∧ ∀ m, V.Inv m → V'.Inv m ∧ V'.rem m = V.rem m ∧ V'.low m = V.low m

section Extends

variable {ops ops' : MatcherOps Matcher} {V : MatcherView ops} {V' : MatcherView ops'}

theorem disjunction_extends (h : Extends V V') {m : DisjunctionMatcher Matcher}
    (hm : DisjunctionMatcher.Good V m) : DisjunctionMatcher.Good V' m ∧
      DisjunctionMatcher.heapRem V' m.heap = DisjunctionMatcher.heapRem V m.heap := by
  have hrem : DisjunctionMatcher.heapRem V' m.heap = DisjunctionMatcher.heapRem V m.heap := by
    ext d
    simp only [DisjunctionMatcher.mem_heapRem]
    refine exists_congr fun e => and_congr_right fun he => ?_
    rw [(h.2 e (hm.entry e he).inv).2.1]
  refine ⟨⟨fun e he => ?_, by rw [hrem]; exact hm.current, hm.ended⟩, hrem⟩
  obtain ⟨hinv, hrem, hlow⟩ := h.2 e (hm.entry e he).inv
  exact ⟨hinv, hrem ▸ (hm.entry e he).live, hlow ▸ (hm.entry e he).low⟩

theorem conjunction_extends (h : Extends V V') {m : ConjunctionMatcher Matcher}
    (hm : ConjunctionMatcher.Good V m) : ConjunctionMatcher.Good V' m ∧
      ConjunctionMatcher.left V' m = ConjunctionMatcher.left V m := by
  cases hex : m.exhausted with
  | true =>
      grind [ConjunctionMatcher.good_ended]
  | false =>
      obtain ⟨hne, hlt, hall⟩ := hm hex
      refine ⟨fun _ => ⟨hne, hlt, fun e he => ⟨(h.2 e (hall e he).1).1, ?_⟩⟩, ?_⟩
      · rw [h.1]
        exact (hall e he).2
      · rw [ConjunctionMatcher.left, ConjunctionMatcher.left, hex]
        ext d
        simp only [Bool.false_eq_true, if_false, ConjunctionMatcher.mem_meet hne]
        exact forall₂_congr fun e he => by rw [(h.2 e (hall e he).1).2.1]

theorem excluded_extends (h : Extends V V') {negatives : List Matcher}
    (hinv : ∀ e ∈ negatives, V.Inv e) (d : ℕ) :
    ConjunctionNotMatcher.excluded V' negatives d ↔
      ConjunctionNotMatcher.excluded V negatives d :=
  exists_congr fun e => and_congr_right fun he => by rw [(h.2 e (hinv e he)).2.1]

theorem conjunction_not_extends (h : Extends V V') {m : ConjunctionNotMatcher Matcher}
    (hm : ConjunctionNotMatcher.Good V m) : ConjunctionNotMatcher.Good V' m ∧
      ConjunctionNotMatcher.left V' m = ConjunctionNotMatcher.left V m := by
  cases hex : m.exhausted with
  | true =>
      grind [ConjunctionNotMatcher.good_ended]
  | false =>
      obtain ⟨hinv, hneg, hcur, hmem⟩ := hm hex
      have hvalid : ConjunctionNotMatcher.valid V' m = ConjunctionNotMatcher.valid V m := by
        rw [ConjunctionNotMatcher.valid, ConjunctionNotMatcher.valid, (h.2 _ hinv).2.1]
        exact Finset.filter_congr fun d _ => not_congr (excluded_extends h hneg d)
      refine ⟨fun _ => ⟨(h.2 _ hinv).1, fun e he => (h.2 e (hneg e he)).1, ?_, ?_⟩, ?_⟩
      · rw [h.1]
        exact hcur
      · rw [hvalid]
        exact hmem
      · rw [ConjunctionNotMatcher.left, ConjunctionNotMatcher.left, hvalid]

theorem not_extends (h : Extends V V') {m : NotMatcher Matcher} (hm : NotMatcher.Good V m) :
    NotMatcher.Good V' m ∧ NotMatcher.left V' m = NotMatcher.left V m := by
  cases hex : m.exhausted with
  | true =>
      grind [NotMatcher.good_ended]
  | false =>
      obtain ⟨hmax, hinv, hmem⟩ := hm hex
      have hvalid : NotMatcher.valid V' m = NotMatcher.valid V m := by
        rw [NotMatcher.valid, NotMatcher.valid, (h.2 _ hinv).2.1]
      refine ⟨fun _ => ⟨hmax, (h.2 _ hinv).1, hvalid ▸ hmem⟩, ?_⟩
      rw [NotMatcher.left, NotMatcher.left, hvalid]

theorem node_extends (h : Extends V V') : ∀ m, Inv V m →
    Inv V' m ∧ rem V' m = rem V m := by
  intro m hm
  cases m with
  | empty => exact ⟨hm, rfl⟩
  | all m => exact ⟨hm, rfl⟩
  | posting m => exact ⟨hm, rfl⟩
  | precomputed m => exact ⟨hm, rfl⟩
  | disjunction m => exact disjunction_extends h hm
  | conjunction m => exact conjunction_extends h hm
  | conjunction_not m => exact conjunction_not_extends h hm
  | not m => exact not_extends h hm

theorem treeView_extends : ∀ depth, Extends (treeView depth) (treeView (depth + 1))
  | 0 => ⟨rfl, fun _ h => h.elim⟩
  | depth + 1 => ⟨rfl, fun m h => by
      obtain ⟨hinv, hrem⟩ := node_extends (treeView_extends depth) m h
      exact ⟨hinv, hrem, rfl⟩⟩

end Extends

/-! ## Matchers at the start of a set -/

/-- A tree of depth at most `depth`, with the documents `R` before it. -/
def At (depth : ℕ) (R : Finset ℕ) (m : Matcher) : Prop :=
  (treeView depth).Inv m ∧ (treeView depth).rem m = R ∧ (treeView depth).low m = 0

/-- The documents of some set. -/
def anyOf (Rs : List (Finset ℕ)) : Finset ℕ := Rs.foldr (· ∪ ·) ∅

/-- The documents of all sets; of no set there are none, for want of a universe. -/
def allOf : List (Finset ℕ) → Finset ℕ
  | [] => ∅
  | R :: Rs => R.filter fun d => ∀ S ∈ Rs, d ∈ S

variable {d depth max_doc : ℕ} {R : Finset ℕ} {Rs : List (Finset ℕ)} {m : Matcher}
variable {ms : List Matcher}

theorem mem_anyOf : d ∈ anyOf Rs ↔ ∃ R ∈ Rs, d ∈ R := by
  induction Rs with
  | nil => simp [anyOf]
  | cons R Rs ih => rw [anyOf, List.foldr_cons, Finset.mem_union, ← anyOf, ih]; simp

theorem mem_allOf (h : Rs ≠ []) : d ∈ allOf Rs ↔ ∀ R ∈ Rs, d ∈ R := by
  cases Rs with
  | nil => exact absurd rfl h
  | cons R Rs => simp [allOf]

theorem At.mono {depth' : ℕ} (h : At depth R m) (hle : depth ≤ depth') : At depth' R m := by
  induction hle with
  | refl => exact h
  | step _ ih =>
      obtain ⟨hinv, hrem, hlow⟩ := ih
      obtain ⟨hinv', hrem', hlow'⟩ := (treeView_extends _).2 m hinv
      exact ⟨hinv', hrem'.trans hrem, hlow'.trans hlow⟩

theorem At.is_exhausted_iff (h : At depth R m) : m.is_exhausted = true ↔ R = ∅ := by
  have hops : (Matcher.ops depth).is_exhausted = Matcher.is_exhausted := by cases depth <;> rfl
  rw [← h.2.1, ← hops]
  exact (treeView depth).ended_iff h.1

theorem forall_at (h : List.Forall₂ (At depth) Rs ms) :
    ∀ m ∈ ms, (treeView depth).Inv m ∧ (treeView depth).low m = 0 := by
  induction h with
  | nil => simp
  | cons hm _ ih =>
      rw [List.forall_mem_cons]
      exact ⟨⟨hm.1, hm.2.2⟩, ih⟩

theorem exists_rem_iff (h : List.Forall₂ (At depth) Rs ms) :
    (∃ m ∈ ms, d ∈ (treeView depth).rem m) ↔ d ∈ anyOf Rs := by
  rw [mem_anyOf]
  induction h with
  | nil => simp
  | cons hm _ ih => simp [hm.2.1, ih]

theorem meet_eq_allOf (h : List.Forall₂ (At depth) Rs ms) :
    ConjunctionMatcher.meet (treeView depth) ms = allOf Rs := by
  have hall : ∀ d, (∀ m ∈ ms, d ∈ (treeView depth).rem m) ↔ ∀ R ∈ Rs, d ∈ R := by
    intro d
    induction h with
    | nil => simp
    | cons hm _ ih => rw [List.forall_mem_cons, List.forall_mem_cons, ih, hm.2.1]
  cases h with
  | nil => rfl
  | cons hm hms =>
      ext d
      rw [ConjunctionMatcher.mem_meet (by simp), mem_allOf (by simp)]
      exact hall d

theorem at_empty : At (depth + 1) ∅ .empty := ⟨trivial, rfl, rfl⟩

theorem at_all (h : max_doc ≤ END) :
    At (depth + 1) (Finset.range max_doc) (.all (AllMatcher.new max_doc)) :=
  ⟨h, Nat.Ico_zero_eq_range max_doc, rfl⟩

theorem at_posting {doc_ids : List UInt32} (h : doc_ids.Pairwise (· < ·)) :
    At (depth + 1) (doc_ids.map UInt32.toNat).toFinset
      (.posting (PostingMatcher.new (PostingIter.new doc_ids))) := by
  obtain ⟨hgood, hdocs⟩ := PostingMatcher.good_new h
  exact ⟨hgood, congrArg List.toFinset hdocs, rfl⟩

theorem at_precomputed {doc_ids : List ℕ} (h : ∀ d ∈ doc_ids, d < END) :
    At (depth + 1) doc_ids.toFinset (.precomputed (PreComputedMatcher.new doc_ids)) := by
  obtain ⟨hgood, hdocs⟩ := PreComputedMatcher.good_new h
  exact ⟨hgood, hdocs, rfl⟩

theorem at_disjunction (h : List.Forall₂ (At depth) Rs ms) :
    At (depth + 1) (anyOf Rs) (.disjunction (DisjunctionMatcher.new (Matcher.ops depth) ms)) := by
  obtain ⟨hgood, hmem⟩ := DisjunctionMatcher.good_new (forall_at h)
  refine ⟨hgood, ?_, rfl⟩
  ext d
  exact (hmem d).trans (exists_rem_iff h)

theorem at_conjunction (h : List.Forall₂ (At depth) Rs ms) :
    ∃ m, ConjunctionMatcher.new (Matcher.ops depth) ms = some m ∧
      At (depth + 1) (allOf Rs) (.conjunction m) := by
  obtain ⟨m, hnew, hgood, hleft⟩ := ConjunctionMatcher.good_new fun m hm => (forall_at h m hm).1
  exact ⟨m, hnew, hgood, hleft.trans (meet_eq_allOf h), rfl⟩

theorem at_conjunction_not (hm : At depth R m) (h : List.Forall₂ (At depth) Rs ms) :
    ∃ m', ConjunctionNotMatcher.new (Matcher.ops depth) m ms = some m' ∧
      At (depth + 1) (R \ anyOf Rs) (.conjunction_not m') := by
  obtain ⟨m', hnew, hgood, hleft⟩ :=
    ConjunctionNotMatcher.good_new hm.1 fun m hm => (forall_at h m hm).1
  refine ⟨m', hnew, hgood, hleft.trans ?_, rfl⟩
  rw [hm.2.1]
  ext d
  rw [Finset.mem_filter, Finset.mem_sdiff]
  exact and_congr_right fun _ => not_congr (exists_rem_iff h)

theorem at_not (hm : At depth R m) (h : max_doc ≤ END) :
    ∃ m', NotMatcher.new (Matcher.ops depth) m max_doc = some m' ∧
      At (depth + 1) (Finset.range max_doc \ R) (.not m') := by
  obtain ⟨m', hnew, hgood, hleft⟩ := NotMatcher.good_new hm.1 h
  refine ⟨m', hnew, hgood, hleft.trans ?_, rfl⟩
  rw [hm.2.1]
  grind

end Matcher

/-! ## Draining -/

/-- **Draining a cursor lists what remains, in ascending order.** -/
theorem drain_matcher_spec {σ : Type} {ops : MatcherOps σ} (V : MatcherView ops) :
    ∀ turns (s : σ), V.Inv s → (V.rem s).card < turns →
      drain_matcher ops turns s = some ((V.rem s).sort (· ≤ ·)) := by
  intro turns
  induction turns with
  | zero => intro s _ h; omega
  | succ turns ih =>
      intro s hs hcard
      rw [drain_matcher]
      rcases (V.rem s).eq_empty_or_nonempty with hempty | hne
      · rw [if_pos ((V.ended_iff hs).2 hempty), hempty, Finset.sort_empty]
      · have hex : ¬ ops.is_exhausted s = true := fun h => hne.ne_empty ((V.ended_iff hs).1 h)
        have hhead := V.head_eq hs
        have hmem : ops.doc_id s ∈ V.rem s := by
          rw [hhead]
          exact first_mem hne
        have hend : ops.doc_id s ≠ END := (V.lt_top hs hmem).ne
        obtain ⟨b, s', hnext, hs', hrem', hb, -⟩ := V.next_spec hs
        have hsort : (V.rem s).sort (· ≤ ·) = ops.doc_id s :: (V.rem s').sort (· ≤ ·) := by
          rw [hrem', hhead]
          exact sort_eq_first_cons hne
        have hcard' : (V.rem s').card < turns := by
          grind [Finset.length_sort]
        simp only [if_neg hex, if_neg hend, hnext, Option.bind_eq_bind, Option.bind_some]
        cases b with
        | false =>
            have hempty' : V.rem s' = ∅ :=
              Finset.not_nonempty_iff_eq_empty.1 fun h => absurd (hb.2 h) (by simp)
            rw [hsort, hempty', Finset.sort_empty]
            rfl
        | true =>
            grind

theorem card_rem_lt {σ : Type} {ops : MatcherOps σ} (V : MatcherView ops) {s : σ}
    (hs : V.Inv s) : (V.rem s).card < 2 ^ 64 := by
  have hsub : V.rem s ⊆ Finset.range END := fun d hd => Finset.mem_range.2 (V.lt_top hs hd)
  have hcard := Finset.card_le_card hsub
  grind [END]

theorem Matcher.At.drain {depth : ℕ} {R : Finset ℕ} {m : Matcher} (h : At depth R m) :
    drain_matcher (Matcher.ops depth) (2 ^ 64) m = some (R.sort (· ≤ ·)) := by
  rw [← h.2.1]
  exact drain_matcher_spec (treeView depth) (2 ^ 64) m h.1 (card_rem_lt _ h.1)

end Laurus
