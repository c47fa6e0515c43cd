import Laurus.Common.OrderedCursor
import Laurus.Matcher.Helpers.PostingIter
import Laurus.Matcher.Model.Matcher

/-!
# The leaves are ordered cursors

`AllMatcher` enumerates an interval and may be sent back to its current
document; `PostingMatcher` and `PreComputedMatcher` enumerate what is left
of an ascending list and may be sent anywhere.
-/

namespace Laurus

/-- A record of matcher calls that is an ordered cursor. -/
abbrev MatcherView {σ : Type} (ops : MatcherOps σ) :=
  View END ops.doc_id ops.is_exhausted ops.next ops.skip_to

/-! ## Ascending lists -/

section Ascending

variable {top d t : ℕ} {l : List ℕ}

theorem first_toFinset_cons (h : (d :: l).Pairwise (· < ·)) : first top (d :: l).toFinset = d := by
  rw [List.pairwise_cons] at h
  refine first_eq (by simp) fun x hx => ?_
  grind [List.mem_toFinset]

theorem filter_toFinset_cons (h : (d :: l).Pairwise (· < ·)) :
    ((d :: l).toFinset.filter fun x => d < x) = l.toFinset := by
  rw [List.pairwise_cons] at h
  ext x
  simp only [Finset.mem_filter, List.mem_toFinset, List.mem_cons]
  grind

theorem filter_toFinset (p : ℕ → Prop) [DecidablePred p] :
    l.toFinset.filter p = (l.filter fun x => p x).toFinset := by
  ext x
  simp

end Ascending

/-! ## The whole universe -/

/-- The calls on an `AllMatcher`. -/
def AllMatcher.ops : MatcherOps AllMatcher where
  doc_id := AllMatcher.doc_id
  is_exhausted := AllMatcher.is_exhausted
  next m := some m.next
  skip_to m target := some (m.skip_to target)

/-- `AllMatcher` enumerates `[current_doc, max_doc)`. -/
def AllMatcher.view : MatcherView AllMatcher.ops where
  Inv m := m.max_doc ≤ END
  rem m := Finset.Ico m.current_doc m.max_doc
  low m := m.current_doc
  lt_top := by grind
  low_le := by grind
  head_eq := by
    intro m hm
    simp only [ops, doc_id]
    split
    · rename_i h
      rw [Finset.Ico_eq_empty_of_le h, first_empty]
    · rename_i h
      refine (first_eq (Finset.mem_Ico.2 ⟨le_rfl, by omega⟩) fun x hx => ?_).symm
      exact (Finset.mem_Ico.1 hx).1
  ended_iff := by
    intro m _
    simp only [ops, is_exhausted, decide_eq_true_eq, Finset.Ico_eq_empty_iff]
    omega
  next_spec := by
    intro m hm
    by_cases h : m.max_doc ≤ m.current_doc
    · refine ⟨false, m, by simp [ops, next, h], hm, ?_, ?_, fun hne => ?_, fun _ => le_rfl⟩
      · grind
      · simp [Finset.Ico_eq_empty_of_le h]
      omega
    · refine ⟨decide (m.current_doc + 1 < m.max_doc),
        { m with current_doc := m.current_doc + 1 }, by simp [ops, next, h], hm, ?_, ?_,
        fun _ => ?_, fun he => ?_⟩
      · ext d
        simp only [ops, doc_id, if_neg h, Finset.mem_Ico, Finset.mem_filter]
        omega
      · simp
      · simp only [ops, doc_id, if_neg h]
        omega
      · rw [Finset.Ico_eq_empty_iff] at he
        omega
  skip_spec := by
    intro m t hm hlow
    by_cases h : m.max_doc ≤ t
    · refine ⟨false, { m with current_doc := m.max_doc }, by simp [ops, skip_to, h], hm, ?_, ?_, ?_⟩
      · grind
      · simp
      · simp only
        omega
    · refine ⟨true, { m with current_doc := t }, by simp [ops, skip_to, h], hm, ?_, ?_, ?_⟩
      · grind
      · simp only [true_iff, Finset.nonempty_Ico]
        omega
      · exact le_max_right _ _

/-! ## A posting list -/

/-- The calls on a `PostingMatcher`. -/
def PostingMatcher.ops : MatcherOps PostingMatcher where
  doc_id := PostingMatcher.doc_id
  is_exhausted m := m.exhausted
  next m := some m.next
  skip_to m target := some (m.skip_to target)

namespace PostingMatcher

/-- The documents from the position on, as numbers. -/
def docs (m : PostingMatcher) : List ℕ := m.posting_iter.live.map UInt32.toNat

/-- The states a `PostingMatcher` over an ascending list reaches. -/
structure Good (m : PostingMatcher) : Prop where
  ascending : m.posting_iter.doc_ids.Pairwise (· < ·)
  table : m.posting_iter.skip_levels = build_skip_levels m.posting_iter.doc_ids
  ended : m.exhausted = true ↔ m.posting_iter.doc_ids.length ≤ m.posting_iter.position
  started : m.exhausted = false → m.posting_iter.started = true

variable {m : PostingMatcher}

theorem Good.pairwise_docs (h : m.Good) : m.docs.Pairwise (· < ·) := by
  refine List.Pairwise.map _ (fun a b hab => ?_)
    (List.Pairwise.sublist (List.drop_sublist m.posting_iter.position _) h.ascending)
  rwa [UInt32.lt_iff_toNat_lt] at hab

theorem docs_eq_nil (h : m.Good) (he : m.exhausted = true) : m.docs = [] := by
  have := h.ended.1 he
  simp [docs, PostingIter.live, List.drop_eq_nil_of_le this]

theorem docs_eq_cons (h : m.Good) (he : m.exhausted = false) :
    m.docs = m.posting_iter.doc_id ::
      (m.posting_iter.doc_ids.drop (m.posting_iter.position + 1)).map UInt32.toNat := by
  grind [Good.ended, docs, PostingIter.live, List.drop_eq_getElem_cons, PostingIter.doc_id]

/-- `PostingMatcher` enumerates what is left of its list. -/
def view : MatcherView ops where
  Inv := Good
  rem m := m.docs.toFinset
  low _ := 0
  lt_top := by
    intro m d _ hd
    obtain ⟨x, -, rfl⟩ := List.mem_map.1 (List.mem_toFinset.1 hd)
    have := x.toNat_lt
    simp only [END]
    omega
  low_le := fun _ _ => Nat.zero_le _
  head_eq := by
    intro m h
    simp only [ops, doc_id]
    cases he : m.exhausted with
    | true => rw [if_pos rfl, docs_eq_nil h he, List.toFinset_nil, first_empty]
    | false =>
        have hpw := h.pairwise_docs
        rw [docs_eq_cons h he] at hpw ⊢
        rw [if_neg (by simp), first_toFinset_cons hpw]
  ended_iff := by
    intro m h
    simp only [ops, List.toFinset_eq_empty_iff]
    cases he : m.exhausted with
    | true => simp [docs_eq_nil h he]
    | false => simp [docs_eq_cons h he]
  next_spec := by
    intro m h
    cases he : m.exhausted with
    | true =>
        refine ⟨false, m, by simp [ops, next, he], h, ?_, ?_, fun _ => Nat.zero_le _,
          fun _ => le_rfl⟩
        · simp [docs_eq_nil h he]
        · simp [docs_eq_nil h he]
    | false =>
        have hlt : m.posting_iter.position < m.posting_iter.doc_ids.length := by
          grind [Good.ended]
        have hpw := h.pairwise_docs
        have hcons := docs_eq_cons h he
        have hne : m.posting_iter.doc_ids ≠ [] := by grind
        refine ⟨decide (m.posting_iter.position + 1 < m.posting_iter.doc_ids.length),
          { posting_iter := { m.posting_iter with position := m.posting_iter.position + 1 }
            exhausted := ! decide (m.posting_iter.position + 1 < m.posting_iter.doc_ids.length) },
          by simp [ops, next, he, PostingIter.next, hne, h.started he], ?_, ?_, ?_,
          fun _ => Nat.zero_le _, fun _ => le_rfl⟩
        · exact ⟨h.ascending, h.table, by simp, fun _ => h.started he⟩
        · rw [hcons] at hpw ⊢
          simp only [ops, doc_id, he, Bool.false_eq_true, if_false]
          rw [filter_toFinset_cons hpw]
          rfl
        · simp only [decide_eq_true_eq, List.toFinset_nonempty_iff, docs, PostingIter.live, ne_eq,
            List.map_eq_nil_iff, List.drop_eq_nil_iff]
          omega
  skip_spec := by
    intro m t h _
    cases he : m.exhausted with
    | true =>
        refine ⟨false, m, by simp [ops, skip_to, he], h, ?_, ?_, Nat.zero_le _⟩
        · simp [docs_eq_nil h he]
        · simp [docs_eq_nil h he]
    | false =>
        have hlt : m.posting_iter.position < m.posting_iter.doc_ids.length := by
          grind [Good.ended]
        obtain ⟨hdocs, htable, hstarted, hlive, hfound⟩ :=
          PostingIter.live_skip_to h.ascending h.table hlt t
        refine ⟨(m.posting_iter.skip_to t).1,
          { posting_iter := (m.posting_iter.skip_to t).2
            exhausted := ! (m.posting_iter.skip_to t).1 },
          by simp [ops, skip_to, he], ⟨?_, ?_, ?_, fun _ => hstarted⟩, ?_, ?_, Nat.zero_le _⟩
        · rw [hdocs]; exact h.ascending
        · rw [htable, h.table, hdocs]
        · rw [hdocs, hfound]
          simp
        · rw [filter_toFinset]
          simp only [docs, hlive, List.filter_map]
          rfl
        · rw [hfound]
          simp only [decide_eq_true_eq, List.toFinset_nonempty_iff, docs, PostingIter.live, ne_eq,
            List.map_eq_nil_iff, List.drop_eq_nil_iff, hdocs]
          omega

theorem good_new {doc_ids : List UInt32} (h : doc_ids.Pairwise (· < ·)) :
    (new (PostingIter.new doc_ids)).Good ∧
      (new (PostingIter.new doc_ids)).docs = doc_ids.map UInt32.toNat := by
  cases doc_ids with
  | nil => exact ⟨⟨h, rfl, by simp [new, PostingIter.new, PostingIter.next],
      by simp [new, PostingIter.new, PostingIter.next]⟩, rfl⟩
  | cons d ds => exact ⟨⟨h, rfl, by simp [new, PostingIter.new, PostingIter.next],
      by simp [new, PostingIter.new, PostingIter.next]⟩, rfl⟩

end PostingMatcher

/-! ## A precomputed list -/

/-- The calls on a `PreComputedMatcher`. -/
def PreComputedMatcher.ops : MatcherOps PreComputedMatcher where
  doc_id := PreComputedMatcher.doc_id
  is_exhausted m := m.exhausted
  next m := some m.next
  skip_to m target := some (m.skip_to target)

namespace PreComputedMatcher

theorem search_spec {docs : List ℕ} (hasc : docs.Pairwise (· < ·)) (target : ℕ) :
    ∀ turns left right, right - left ≤ turns → left ≤ right → right ≤ docs.length →
      let q := search docs target turns left right
      left ≤ q ∧ q ≤ right ∧ (∀ i d, left ≤ i → i < q → docs[i]? = some d → d < target) ∧
        ∀ i d, q ≤ i → i < right → docs[i]? = some d → target ≤ d := by
  intro turns
  induction turns with
  | zero =>
      grind [search]
  | succ turns ih =>
      intro left right h hle hlen
      rw [search]
      by_cases hlt : left < right
      · rw [if_pos hlt]
        simp only
        set mid := left + (right - left) / 2 with hmid
        have hmidlt : mid < docs.length := by omega
        have hget : docs[mid]? = some docs[mid] := List.getElem?_eq_getElem hmidlt
        have hgetD : docs.getD mid END = docs[mid] := by grind
        rw [hgetD]
        split
        · rename_i hge
          obtain ⟨h1, h2, h3, h4⟩ := ih left mid (by omega) (by omega) (by omega)
          refine ⟨h1, by omega, h3, fun i d hi hir hd => ?_⟩
          rcases lt_or_ge i mid with him | him
          · exact h4 i d hi him hd
          · obtain ⟨hi', hgi⟩ := List.getElem?_eq_some_iff.1 hd
            rcases him.eq_or_lt with rfl | him
            · rw [← hgi]; exact hge
            grind
        · rename_i hge
          obtain ⟨h1, h2, h3, h4⟩ := ih (mid + 1) right (by omega) (by omega) hlen
          refine ⟨by omega, h2, fun i d hi hiq hd => ?_, h4⟩
          rcases lt_or_ge mid i with him | him
          · exact h3 i d him hiq hd
          · obtain ⟨hi', hgi⟩ := List.getElem?_eq_some_iff.1 hd
            rcases him.eq_or_lt with rfl | him
            · rw [← hgi]; omega
            · have := List.pairwise_iff_getElem.1 hasc i mid hi' hmidlt him
              omega
      · rw [if_neg hlt]
        exact ⟨le_rfl, hle, fun i d h1 h2 => by omega, fun i d h1 h2 => by omega⟩

theorem drop_search {docs : List ℕ} (hasc : docs.Pairwise (· < ·)) {left : ℕ} (target : ℕ)
    (hleft : left ≤ docs.length) :
    docs.drop (search docs target docs.length left docs.length) =
      (docs.drop left).filter fun d => target ≤ d := by
  obtain ⟨hge, hle, hbelow, habove⟩ :=
    search_spec hasc target docs.length left docs.length (by omega) hleft le_rfl
  set q := search docs target docs.length left docs.length
  have hsplit : docs.drop left = (docs.drop left).take (q - left) ++ docs.drop q := by
    conv_lhs => rw [← List.take_append_drop (q - left) (docs.drop left)]
    rw [List.drop_drop, show left + (q - left) = q by omega]
  have hnone : ((docs.drop left).take (q - left)).filter (fun d => target ≤ d) = [] := by
    grind [List.filter_eq_nil_iff, List.mem_iff_getElem?]
  grind [List.filter_eq_self, List.mem_iff_getElem?]

/-- The states a `PreComputedMatcher` over documents below the end reaches. -/
structure Good (m : PreComputedMatcher) : Prop where
  ascending : m.doc_ids.Pairwise (· < ·)
  below : ∀ d ∈ m.doc_ids, d < END
  ended : m.exhausted = true ↔ m.doc_ids.length ≤ m.current_index

variable {m : PreComputedMatcher}

/-- The documents from the index on. -/
def docs (m : PreComputedMatcher) : List ℕ := m.doc_ids.drop m.current_index

theorem Good.pairwise_docs (h : m.Good) : m.docs.Pairwise (· < ·) :=
  List.Pairwise.sublist (List.drop_sublist _ _) h.ascending

theorem docs_eq_nil (h : m.Good) (he : m.exhausted = true) : m.docs = [] :=
  List.drop_eq_nil_of_le (h.ended.1 he)

theorem docs_eq_cons (h : m.Good) (he : m.exhausted = false) :
    m.docs = m.doc_ids.getD m.current_index END :: m.doc_ids.drop (m.current_index + 1) := by
  have hlt : m.current_index < m.doc_ids.length := by
    grind [Good.ended]
  rw [docs, List.drop_eq_getElem_cons hlt, List.getD_eq_getElem?_getD,
    List.getElem?_eq_getElem hlt, Option.getD_some]

/-- `PreComputedMatcher` enumerates what is left of its list. -/
def view : MatcherView ops where
  Inv := Good
  rem m := m.docs.toFinset
  low _ := 0
  lt_top := fun h hd => h.below _ (List.mem_of_mem_drop (List.mem_toFinset.1 hd))
  low_le := fun _ _ => Nat.zero_le _
  head_eq := by
    intro m h
    simp only [ops, doc_id]
    cases he : m.exhausted with
    | true => rw [if_pos rfl, docs_eq_nil h he, List.toFinset_nil, first_empty]
    | false =>
        have hpw := h.pairwise_docs
        rw [docs_eq_cons h he] at hpw ⊢
        rw [if_neg (by simp), first_toFinset_cons hpw]
  ended_iff := by
    intro m h
    simp only [ops, List.toFinset_eq_empty_iff]
    cases he : m.exhausted with
    | true => simp [docs_eq_nil h he]
    | false => simp [docs_eq_cons h he]
  next_spec := by
    intro m h
    cases he : m.exhausted with
    | true =>
        refine ⟨false, m, by simp [ops, next, he], h, ?_, ?_, fun _ => Nat.zero_le _,
          fun _ => le_rfl⟩
        · simp [docs_eq_nil h he]
        · simp [docs_eq_nil h he]
    | false =>
        have hpw := h.pairwise_docs
        have hcons := docs_eq_cons h he
        refine ⟨decide (m.current_index + 1 < m.doc_ids.length),
          { m with
            current_index := m.current_index + 1
            exhausted := decide (m.doc_ids.length ≤ m.current_index + 1) }, ?_, ?_, ?_, ?_,
          fun _ => Nat.zero_le _, fun _ => le_rfl⟩
        · simp only [ops, next, he, Bool.false_eq_true, if_false]
          grind
        · exact ⟨h.ascending, h.below, by simp⟩
        · rw [hcons] at hpw ⊢
          simp only [ops, doc_id, he, Bool.false_eq_true, if_false]
          rw [filter_toFinset_cons hpw]
          rfl
        · simp only [decide_eq_true_eq, List.toFinset_nonempty_iff, docs, ne_eq,
            List.drop_eq_nil_iff]
          omega
  skip_spec := by
    intro m t h _
    cases he : m.exhausted with
    | true =>
        refine ⟨false, m, by simp [ops, skip_to, he], h, ?_, ?_, Nat.zero_le _⟩
        · simp [docs_eq_nil h he]
        · simp [docs_eq_nil h he]
    | false =>
        have hlt : m.current_index < m.doc_ids.length := by
          grind [Good.ended]
        have hdrop := drop_search h.ascending t hlt.le
        set q := search m.doc_ids t m.doc_ids.length m.current_index m.doc_ids.length with hq
        refine ⟨decide (q < m.doc_ids.length),
          { m with current_index := q, exhausted := decide (m.doc_ids.length ≤ q) }, ?_, ?_, ?_, ?_,
          Nat.zero_le _⟩
        · simp only [ops, skip_to, he, Bool.false_eq_true, if_false, ← hq]
          grind
        · exact ⟨h.ascending, h.below, by simp⟩
        · rw [filter_toFinset]
          simp only [docs, hdrop]
        · simp only [decide_eq_true_eq, List.toFinset_nonempty_iff, docs, ne_eq,
            List.drop_eq_nil_iff]
          omega

theorem good_new {doc_ids : List ℕ} (h : ∀ d ∈ doc_ids, d < END) :
    (new doc_ids).Good ∧ (new doc_ids).docs.toFinset = doc_ids.toFinset := by
  refine ⟨⟨?_, fun d hd => ?_, ?_⟩, ?_⟩
  · exact (Finset.sortedLT_sort doc_ids.toFinset).pairwise
  · exact h d (List.mem_toFinset.1 ((Finset.mem_sort _).1 hd))
  · simp only [new, List.isEmpty_iff, nonpos_iff_eq_zero, List.length_eq_zero_iff]
  · simp [new, docs]

end PreComputedMatcher

end Laurus
