import Laurus.Common.PriorityHeap
import Laurus.Reader.Model.IndexReader

/-!
# The merge visits every entry, in order

`all_entries` are what the wrappers have left. An advance takes away the least
(`advance_spec`), so a loop over `next` visits all of them in ascending order
(`drain_spec`), over the linear scan and over the heap alike.
-/

namespace Laurus

/-! ## The least wrapper -/

section Least

variable {wrappers : List IteratorWrapper} {w : IteratorWrapper}

theorem find_min_idx_from_eq : ∀ (wrappers : List IteratorWrapper) (i min_idx min_doc : ℕ),
    find_min_idx_from wrappers i min_idx min_doc =
      least_index_from (fun w : IteratorWrapper => w.current.doc_id) wrappers i min_idx min_doc
  | [], _, _, _ => rfl
  | w :: wrappers, i, min_idx, min_doc => by
      rw [find_min_idx_from, least_index_from, find_min_idx_from_eq wrappers (i + 1) i,
        find_min_idx_from_eq wrappers (i + 1) min_idx]

theorem find_min_idx_spec (h : wrappers ≠ []) :
    ∃ w, wrappers[find_min_idx wrappers]? = some w ∧
      ∀ w' ∈ wrappers, w.current.doc_id ≤ w'.current.doc_id := by
  have heq : find_min_idx wrappers =
      least_index (fun w : IteratorWrapper => w.current.doc_id) wrappers := by
    rcases wrappers with _ | ⟨w, rest⟩
    · rfl
    · exact find_min_idx_from_eq rest 1 0 w.current.doc_id
  rw [heq]
  exact least_index_spec _ h

end Least

/-! ## What is left -/

namespace IteratorWrapper

/-- The entries an iterator has left. -/
def entries (w : IteratorWrapper) : List PostingEntry := w.current :: w.rest

/-- The documents of an iterator are ascending. -/
def Ascending (w : IteratorWrapper) : Prop :=
  w.entries.Pairwise fun a b => a.doc_id < b.doc_id

end IteratorWrapper

/-- The entries that some wrappers have left. -/
def all_entries (wrappers : List IteratorWrapper) : List PostingEntry :=
  wrappers.flatMap IteratorWrapper.entries

section Entries

variable {wrappers wrappers' : List IteratorWrapper} {w : IteratorWrapper} {idx : ℕ}

theorem entries_perm (h : wrappers.Perm wrappers') :
    (all_entries wrappers).Perm (all_entries wrappers') := h.flatMap_right _

theorem entries_wrap (l : List PostingEntry) :
    all_entries (MergedPostingIterator.wrap l).toList = l := by
  match l with
  | [] => rfl
  | e :: l => exact List.append_nil _

theorem wrap_ascending {l : List PostingEntry} (hl : l.Pairwise fun a b => a.doc_id < b.doc_id)
    (h : MergedPostingIterator.wrap l = some w) : w.Ascending := by
  match l with
  | [] => exact absurd h (by simp [MergedPostingIterator.wrap])
  | e :: l =>
      obtain rfl := Option.some.inj h
      exact hl

theorem set_perm {moved : IteratorWrapper} (h : idx < wrappers.length) :
    (wrappers.set idx moved).Perm (moved :: wrappers.eraseIdx idx) :=
  List.set_perm_cons_eraseIdx h moved

theorem swap_remove_perm (h : wrappers[idx]? = some w) :
    (swap_remove wrappers idx).Perm (wrappers.eraseIdx idx) := by
  have heq : swap_remove wrappers idx = swapRemove wrappers idx := by
    rw [swap_remove, swapRemove]
    grind
  rw [heq]
  exact swapRemove_perm h

end Entries

/-! ## The iterator -/

namespace MergedPostingIterator

def wrappers (it : MergedPostingIterator) : List IteratorWrapper :=
  match it.inner with
  | .linear wrappers _ => wrappers
  | .heap wrappers => wrappers

/-- The linear scan's index is that of a least wrapper, and each iterator is
ascending. -/
structure InOrder (it : MergedPostingIterator) : Prop where
  ascending : ∀ w ∈ it.wrappers, w.Ascending
  min_idx : ∀ wrappers min_idx, it.inner = .linear wrappers min_idx →
    min_idx = find_min_idx wrappers

variable {it : MergedPostingIterator} {w : IteratorWrapper} {ws : List IteratorWrapper} {idx : ℕ}

theorem advance_linear_perm (h : ws[idx]? = some w) :
    (advance_linear ws idx).Perm ((wrap w.rest).toList ++ ws.eraseIdx idx) := by
  rw [advance_linear, h]
  simp only
  cases wrap w.rest with
  | some moved => exact set_perm (List.getElem?_eq_some_iff.1 h).1
  | none => exact swap_remove_perm h

theorem advance_heap_perm (h : ws[find_min_idx ws]? = some w) :
    (advance_heap ws).Perm ((wrap w.rest).toList ++ ws.eraseIdx (find_min_idx ws)) := by
  rw [advance_heap, h]
  grind

/-- **An advance takes away the least entry.** -/
theorem advance_spec (hgood : it.InOrder) (hne : it.wrappers ≠ []) :
    ∃ w, it.current_wrapper = some w ∧
      (∀ e ∈ all_entries it.wrappers, w.current.doc_id ≤ e.doc_id) ∧
      it.advance.2.InOrder ∧ it.advance.2.started = it.started ∧
      it.advance.1 = ! it.advance.2.wrappers.isEmpty ∧
      (all_entries it.wrappers).Perm (w.current :: all_entries it.advance.2.wrappers) := by
  obtain ⟨w, hw, hleast⟩ := find_min_idx_spec hne
  have hmem : w ∈ it.wrappers := List.mem_of_getElem? hw
  have hentry : ∀ e ∈ all_entries it.wrappers, w.current.doc_id ≤ e.doc_id := by
    intro e he
    obtain ⟨w', hw', he⟩ := List.mem_flatMap.1 he
    have hle := hleast w' hw'
    rcases List.mem_cons.1 he with rfl | he
    · exact hle
    · have := (List.pairwise_cons.1 (hgood.ascending w' hw')).1 e he
      omega
  have hperm : ∀ after, after.Perm ((wrap w.rest).toList ++
      it.wrappers.eraseIdx (find_min_idx it.wrappers)) →
      (∀ w' ∈ after, w'.Ascending) ∧ (all_entries it.wrappers).Perm (w.current :: all_entries after) := by
    intro after hafter
    refine ⟨fun w' hw' => ?_, ?_⟩
    · rcases List.mem_append.1 (hafter.mem_iff.1 hw') with hw' | hw'
      · rw [Option.mem_toList] at hw'
        exact wrap_ascending (List.pairwise_cons.1 (hgood.ascending w hmem)).2 hw'
      · exact hgood.ascending w' ((List.eraseIdx_subset) hw')
    · refine (entries_perm (perm_cons_eraseIdx hw)).trans ?_
      refine List.Perm.trans ?_ ((entries_perm hafter).symm.cons w.current)
      rw [all_entries, List.flatMap_cons, IteratorWrapper.entries, all_entries, List.flatMap_append]
      show (w.current :: w.rest ++ _).Perm (w.current :: (all_entries (wrap w.rest).toList ++ _))
      rw [entries_wrap]
      exact List.Perm.refl _
  obtain ⟨inner, started⟩ := it
  cases inner with
  | linear wrappers min_idx =>
      obtain rfl : min_idx = find_min_idx wrappers := hgood.min_idx wrappers min_idx rfl
      obtain ⟨hascending, hentries⟩ := hperm _ (advance_linear_perm hw)
      refine ⟨w, hw, hentry, ⟨hascending, fun wrappers' min_idx' heq => ?_⟩, rfl, rfl, hentries⟩
      obtain ⟨rfl, rfl⟩ := MergeImpl.linear.inj heq
      rfl
  | heap wrappers =>
      obtain ⟨hascending, hentries⟩ := hperm _ (advance_heap_perm hw)
      exact ⟨w, hw, hentry, ⟨hascending, fun _ _ heq => by simp [advance] at heq⟩, rfl, rfl,
        hentries⟩

theorem drain_started (turns : ℕ) : ∀ {it : MergedPostingIterator}, it.InOrder →
    it.started = true → it.wrappers ≠ [] → (all_entries it.wrappers).length ≤ turns →
    ∃ w, it.current_wrapper = some w ∧
      (w.current :: drain turns it).Perm (all_entries it.wrappers) ∧
      (w.current :: drain turns it).Pairwise fun a b => a.doc_id ≤ b.doc_id := by
  induction turns with
  | zero =>
      intro it hgood _ hne hlen
      obtain ⟨w, -, -, -, -, -, hperm⟩ := advance_spec hgood hne
      have := hperm.length_eq
      grind
  | succ turns ih =>
      intro it hgood hstarted hne hlen
      obtain ⟨w, hw, hleast, hgood', hstarted', hmore, hperm⟩ := advance_spec hgood hne
      have hnext : it.next = (it.advance.1, it.advance.2) := by rw [next, if_pos hstarted]
      refine ⟨w, hw, ?_⟩
      by_cases hend : it.advance.2.wrappers = []
      · rw [hend] at hmore hperm
        rw [drain, hnext, hmore]
        exact ⟨hperm.symm, List.pairwise_singleton _ _⟩
      · have hlen' : (all_entries it.advance.2.wrappers).length ≤ turns := by
          have := hperm.length_eq
          grind
        obtain ⟨w', hw', hperm', hsorted⟩ := ih hgood' (hstarted'.trans hstarted) hend hlen'
        have hdrain : drain (turns + 1) it = w'.current :: drain turns it.advance.2 := by
          grind [drain]
        grind

/-- **A loop over the merged iterator visits the entries of all iterators, in
ascending order.** -/
theorem drain_spec {iterators : List (List PostingEntry)} {turns : ℕ}
    (hascending : ∀ l ∈ iterators, l.Pairwise fun a b => a.doc_id < b.doc_id)
    (hlen : iterators.flatten.length ≤ turns) :
    (drain (turns + 1) (new iterators)).Perm iterators.flatten ∧
      (drain (turns + 1) (new iterators)).Pairwise fun a b => a.doc_id ≤ b.doc_id := by
  have hwrappers : (new iterators).wrappers = iterators.filterMap wrap := by
    rw [new, wrappers]
    grind
  have hentries : all_entries (iterators.filterMap wrap) = iterators.flatten := by
    clear hascending hlen hwrappers
    induction iterators with
    | nil => rfl
    | cons l iterators ih =>
        rw [List.flatten_cons, ← ih]
        match l with
        | [] => rfl
        | e :: l => rfl
  have hgood : (new iterators).InOrder := by
    refine ⟨fun w hw => ?_, fun ws min_idx heq => ?_⟩
    · grind [wrap_ascending]
    · rw [new] at heq
      grind
  have hexhausted : (new iterators).next.1 = ! (new iterators).wrappers.isEmpty := by
    rw [next, if_neg (by simp [new])]
    simp only [wrappers]
    split <;> simp_all
  have hstart : (new iterators).next.2 = { new iterators with started := true } := by
    rw [next, if_neg (by simp [new])]
  rw [← hentries, ← hwrappers]
  by_cases hend : (new iterators).wrappers = []
  · have hfalse : (new iterators).next.1 = false := by
      rw [hexhausted, hend]
      rfl
    rw [drain, show (new iterators).next = (false, (new iterators).next.2) from
      Prod.ext hfalse rfl, hend]
    exact ⟨List.Perm.refl _, List.Pairwise.nil⟩
  · have hlen' : (all_entries ({ new iterators with started := true } :
        MergedPostingIterator).wrappers).length ≤ turns := by
      show (all_entries (new iterators).wrappers).length ≤ turns
      grind
    have hgood' : InOrder { new iterators with started := true } :=
      ⟨hgood.ascending, hgood.min_idx⟩
    obtain ⟨w, hw, hperm, hsorted⟩ := drain_started turns hgood' rfl hend hlen'
    have htrue : (new iterators).next.1 = true := by grind
    have hdrain : drain (turns + 1) (new iterators) =
        w.current :: drain turns { new iterators with started := true } := by
      rw [drain, show (new iterators).next = (true, { new iterators with started := true }) from
        Prod.ext htrue hstart]
      simp only [hw]
    rw [hdrain]
    exact ⟨hperm, hsorted⟩

end MergedPostingIterator

end Laurus
