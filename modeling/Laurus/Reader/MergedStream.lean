import Laurus.Common.OrderedCursor
import Laurus.Posting.Decoder
import Laurus.Reader.Model.MergedCursor
import Laurus.Reader.Model.Segment
import Mathlib.Algebra.Order.BigOperators.Group.List
import Mathlib.Data.List.GetD

/-!
# The merged iterator is the stream of all entries

A `PostingStream` has a list of entries left: a `next` takes the first away,
except the first time, and a skip what lies below its target. The merged
cursor over any decoded lists shows what the stream of their merge shows
(`Shows.call`), so any calls observe the same of both, whether the wrappers
are scanned or in a heap (`merged_cursor_streams`).
-/

namespace Laurus

/-!
## What the merged cursor has left

`rows` are the entries of a decoded list. A wrapper that is on one has it and
those behind it left (`PostingWrapper.Good`), and the cursor what its
wrappers have (`MergedCursor.Leaves`): the first of it is the entry of the
least wrapper, and an advance takes it away (`Leaves.advance`).
-/

/-! ## Rows -/

namespace DecodedPostingList

/-- The entry at an index. -/
def row (list : DecodedPostingList) (i : ℕ) : PostingEntry where
  doc_id := (list.doc_ids.getD i 0).toNat
  frequency := (list.frequencies.getD i 0).toNat
  positions := (list.positions.bind fun per_doc => per_doc.getD i none).map
    fun positions => positions.map UInt32.toNat

/-- The entries from an index on. -/
def rows_from (list : DecodedPostingList) (i : ℕ) : List PostingEntry :=
  (List.range' i (list.doc_ids.length - i)).map list.row

/-- The entries. -/
def rows (list : DecodedPostingList) : List PostingEntry := list.rows_from 0

/-- The arrays are parallel, and the documents ascending. -/
structure Aligned (list : DecodedPostingList) : Prop where
  ascending : list.doc_ids.Pairwise (· < ·)
  frequencies : list.frequencies.length = list.doc_ids.length
  positions : ∀ per_doc ∈ list.positions, per_doc.length = list.doc_ids.length

variable {list : DecodedPostingList} {i : ℕ}

theorem rows_from_of_le (h : list.doc_ids.length ≤ i) : list.rows_from i = [] := by
  rw [rows_from, Nat.sub_eq_zero_of_le h]
  rfl

theorem rows_from_of_lt (h : i < list.doc_ids.length) :
    list.rows_from i = list.row i :: list.rows_from (i + 1) := by
  rw [rows_from, rows_from, show list.doc_ids.length - i = list.doc_ids.length - (i + 1) + 1 by omega,
    List.range'_succ, List.map_cons]

theorem docs_rows : list.rows.map PostingEntry.doc_id = list.doc_ids.map UInt32.toNat := by
  grind [List.ext_getElem, rows, rows_from, List.length_map, row]

theorem Aligned.pairwise_rows_from (h : list.Aligned) (i : ℕ) :
    (list.rows_from i).Pairwise fun a b => a.doc_id < b.doc_id := by
  rw [rows_from, List.pairwise_map]
  grind [List.pairwise_iff_getElem, ascending, row, UInt32.lt_iff_toNat_lt]

end DecodedPostingList

/-! ## An iterator on an entry -/

namespace InvertedIndexPostingIterator

variable {it : InvertedIndexPostingIterator}

theorem doc_id_of_lt (h : it.position < it.data.doc_ids.length) :
    it.doc_id = (it.data.row it.position).doc_id := by
  rw [doc_id, PostingIter.doc_id, cursor]
  dsimp only
  rw [List.getElem?_eq_getElem h, DecodedPostingList.row, List.getD_eq_getElem _ _ h]

theorem term_freq_of_lt (hdata : it.data.Aligned) (h : it.position < it.data.doc_ids.length) :
    it.term_freq = (it.data.row it.position).frequency := by
  have hlt : it.position < it.data.frequencies.length := by rw [hdata.frequencies]; exact h
  rw [term_freq, List.getElem?_eq_getElem hlt, DecodedPostingList.row,
    List.getD_eq_getElem _ _ hlt]

theorem positions_of_lt (hdata : it.data.Aligned) (h : it.position < it.data.doc_ids.length) :
    it.positions = some ((it.data.row it.position).positions.getD []) := by
  rw [positions, if_neg (Nat.not_le.2 h), DecodedPostingList.row]
  rcases hper : it.data.positions with _ | per_doc
  · rfl
  · have hlt : it.position < per_doc.length := by
      rw [hdata.positions per_doc hper]
      exact h
    dsimp only [Option.bind_some]
    rw [List.getElem?_eq_getElem hlt, List.getD_eq_getElem _ _ hlt]
    rcases per_doc[it.position] with _ | positions <;> rfl

end InvertedIndexPostingIterator

/-! ## Wrappers -/

namespace PostingWrapper

/-- The entry a wrapper is on. -/
def entry (w : PostingWrapper) : PostingEntry := w.iter.data.row w.iter.position

/-- The entries a wrapper has left. -/
def entries (w : PostingWrapper) : List PostingEntry := w.iter.data.rows_from w.iter.position

/-- A wrapper is on an entry of its list, and was seen there. -/
structure Good (w : PostingWrapper) : Prop where
  data : w.iter.data.Aligned
  started : w.iter.started = true
  on : w.iter.position < w.iter.data.doc_ids.length
  seen : w.current_doc = w.iter.doc_id

variable {w : PostingWrapper}

theorem Good.current_doc_eq (h : w.Good) : w.current_doc = w.entry.doc_id := by
  rw [h.seen, InvertedIndexPostingIterator.doc_id_of_lt h.on, entry]

theorem Good.entries_eq (h : w.Good) :
    w.entries = w.entry :: w.iter.data.rows_from (w.iter.position + 1) :=
  DecodedPostingList.rows_from_of_lt h.on

theorem Good.current_doc_le (h : w.Good) {e : PostingEntry} (he : e ∈ w.entries) :
    w.current_doc ≤ e.doc_id := by
  have hpair := h.data.pairwise_rows_from w.iter.position
  grind [entries, entries_eq, List.pairwise_cons, current_doc_eq]

/-- What the wrappers have left. -/
def left (wrappers : List PostingWrapper) : List PostingEntry :=
  wrappers.flatMap PostingWrapper.entries

end PostingWrapper

namespace MergedCursor

open PostingWrapper

variable {iter : InvertedIndexPostingIterator} {w : PostingWrapper}

/-- **An iterator moved on** has what is behind the entry it was on. -/
theorem moved_started (hdata : iter.data.Aligned) (hstarted : iter.started = true)
    (hon : iter.position < iter.data.doc_ids.length) :
    left (moved iter).toList = iter.data.rows_from (iter.position + 1) ∧
      ∀ w ∈ moved iter, w.Good := by
  have hne : ¬ iter.data.doc_ids.isEmpty = true := fun hempty => by grind
  have hnext : iter.next = (decide (iter.position + 1 < iter.data.doc_ids.length),
      { iter with position := iter.position + 1, started := true }) := by
    rw [InvertedIndexPostingIterator.next, PostingIter.next,
      InvertedIndexPostingIterator.cursor, if_neg hne, if_pos hstarted]
    simp only [hstarted]
  rw [moved, hnext]
  by_cases hmore : iter.position + 1 < iter.data.doc_ids.length
  · rw [decide_eq_true hmore, if_pos rfl]
    refine ⟨List.append_nil _, ?_⟩
    rintro _ ⟨⟩
    exact ⟨hdata, rfl, hmore, rfl⟩
  · rw [decide_eq_false hmore, if_neg Bool.false_ne_true,
      DecodedPostingList.rows_from_of_le (by omega)]
    refine ⟨rfl, ?_⟩
    rintro _ ⟨⟩

theorem moved_new {data : DecodedPostingList} (hdata : data.Aligned) :
    left (moved (.from_decoded_soa data)).toList = data.rows ∧
      ∀ w ∈ moved (.from_decoded_soa data), w.Good := by
  rw [moved, InvertedIndexPostingIterator.next, PostingIter.next,
    InvertedIndexPostingIterator.cursor, InvertedIndexPostingIterator.from_decoded_soa]
  by_cases hempty : data.doc_ids.isEmpty = true
  · rw [if_pos hempty, if_neg Bool.false_ne_true, DecodedPostingList.rows,
      DecodedPostingList.rows_from_of_le (by grind)]
    refine ⟨rfl, ?_⟩
    rintro _ ⟨⟩
  · rw [if_neg hempty, if_neg Bool.false_ne_true, if_pos rfl]
    refine ⟨List.append_nil _, ?_⟩
    rintro _ ⟨⟩
    refine ⟨hdata, rfl, List.length_pos_iff.2 fun h => hempty ?_, rfl⟩
    rw [h]
    rfl

/-- **What some wrappers have left**, in order. -/
structure Leaves (wrappers : List PostingWrapper) (R : List PostingEntry) : Prop where
  good : ∀ w ∈ wrappers, w.Good
  perm : (left wrappers).Perm R
  sorted : R.Pairwise fun a b => a.doc_id < b.doc_id

variable {wrappers wrappers' others : List PostingWrapper} {R : List PostingEntry}

theorem left_perm (h : wrappers.Perm wrappers') : (left wrappers).Perm (left wrappers') :=
  h.flatMap_right _

theorem Leaves.first (h : Leaves wrappers R) (hw : w ∈ wrappers)
    (hleast : ∀ w' ∈ wrappers, w.current_doc ≤ w'.current_doc) : ∃ rest, R = w.entry :: rest := by
  have hgood := h.good w hw
  have hmem : w.entry ∈ R := by
    refine h.perm.mem_iff.1 (List.mem_flatMap.2 ⟨w, hw, ?_⟩)
    rw [hgood.entries_eq]
    exact List.mem_cons_self
  have hle : ∀ e ∈ R, w.entry.doc_id ≤ e.doc_id := by
    intro e he
    obtain ⟨w', hw', he⟩ := List.mem_flatMap.1 (h.perm.mem_iff.2 he)
    rw [← hgood.current_doc_eq]
    exact (hleast w' hw').trans ((h.good w' hw').current_doc_le he)
  rcases R with _ | ⟨e, rest⟩
  · exact absurd hmem List.not_mem_nil
  · rcases List.mem_cons.1 hmem with heq | hrest
    · exact ⟨rest, by rw [heq]⟩
    · have hlt := (List.pairwise_cons.1 h.sorted).1 w.entry hrest
      grind

theorem Leaves.nil_iff (h : Leaves wrappers R) : wrappers = [] ↔ R = [] := by
  constructor
  · rintro rfl
    exact List.nil_perm.1 h.perm
  · rintro rfl
    rcases wrappers with _ | ⟨w, wrappers⟩
    · rfl
    · have hlen := h.perm.length_eq
      rw [left, List.flatMap_cons, (h.good w List.mem_cons_self).entries_eq] at hlen
      exact absurd hlen (by simp)

/-- **Where the least wrapper is moved on**, the first entry is taken away. -/
theorem Leaves.move {e : PostingEntry} (h : Leaves wrappers (e :: R)) (hw : w ∈ wrappers)
    (hfirst : w.entry = e) (hperm : wrappers.Perm (w :: others))
    (hperm' : wrappers'.Perm ((moved w.iter).toList ++ others)) : Leaves wrappers' R := by
  have hgood := h.good w hw
  obtain ⟨hleft, hmoved⟩ := moved_started hgood.data hgood.started hgood.on
  refine ⟨fun w' hw' => ?_, ?_, (List.pairwise_cons.1 h.sorted).2⟩
  · grind [good]
  · refine (List.perm_cons e).1 (List.Perm.trans ?_ ((left_perm hperm).symm.trans h.perm))
    grind [left, Good.entries_eq]

end MergedCursor

section MergedStream

/-! ## The stream -/

/-- The entries that are left of a stream. -/
structure PostingStream where
  left : List PostingEntry
  started : Bool

namespace PostingStream

def next (s : PostingStream) : PostingStream :=
  if s.started then { s with left := s.left.tail } else { s with started := true }

def skip_to (s : PostingStream) (target : ℕ) : PostingStream :=
  { left := s.left.filter fun e => target ≤ e.doc_id, started := true }

/-- The stream after a call, which answers whether an entry is left. -/
def call (s : PostingStream) : CursorCall → PostingStream
  | .next => s.next
  | .skip target => s.skip_to target

end PostingStream

/-- What a call shows: its answer, and of the entry the cursor is then on the
document, the frequency and the positions. -/
structure CursorShows where
  answer : Bool
  doc_id : ℕ
  term_freq : ℕ
  positions : Option (List ℕ)
  deriving DecidableEq, Repr

/-- What a stream shows: of no entry the document is `u64::MAX`. -/
def PostingStream.shows (s : PostingStream) : CursorShows where
  answer := !s.left.isEmpty
  doc_id := (s.left.head?.map PostingEntry.doc_id).getD END
  term_freq := (s.left.head?.map PostingEntry.frequency).getD 0
  positions := some ((s.left.head?.bind PostingEntry.positions).getD [])

/-- What the calls show of a stream. -/
def PostingStream.trace : PostingStream → List CursorCall → List CursorShows
  | _, [] => []
  | s, call :: calls => (s.call call).shows :: trace (s.call call) calls

namespace MergedCursor

open PostingWrapper

variable (heap : PriorityHeap PostingWrapper PostingWrapper.le)

/-- One call on the merged cursor. -/
def call (it : MergedCursor) : CursorCall → Option (Bool × MergedCursor)
  | .next => it.next heap
  | .skip target => it.skip_to heap target

/-- What the calls show of the merged cursor. -/
def trace : MergedCursor → List CursorCall → Option (List CursorShows)
  | _, [] => some []
  | it, call :: calls =>
    (it.call heap call).bind fun r =>
      (trace r.2 calls).map fun rest =>
        { answer := r.1, doc_id := r.2.doc_id, term_freq := r.2.term_freq heap,
          positions := r.2.positions heap } :: rest

/-! ## The state -/

/-- **The state of a merged cursor** that has `R` left. -/
structure Holds (it : MergedCursor) (R : List PostingEntry) : Prop where
  leaves : Leaves it.wrappers R
  min_idx : ∀ wrappers idx, it.inner = .linear wrappers idx → wrappers ≠ [] →
    idx = least_wrapper wrappers
  current : it.current_doc = (R.head?.map PostingEntry.doc_id).getD END

variable {heap} {it : MergedCursor} {R : List PostingEntry} {e : PostingEntry}
  {wrappers : List PostingWrapper} {started : Bool}

theorem peek_spec (h : wrappers ≠ []) : ∃ w rest, heap.pop wrappers = some (w, rest) ∧
    heap.peek wrappers = some w ∧ w ∈ wrappers ∧ wrappers.Perm (w :: rest) ∧
      ∀ w' ∈ wrappers, w.current_doc ≤ w'.current_doc := by
  rcases wrappers with _ | ⟨first, others⟩
  · exact absurd rfl h
  · obtain ⟨⟨w, rest⟩, hpop⟩ := heap.pop_cons first others
    exact ⟨w, rest, hpop, by rw [PriorityHeap.peek, hpop]; rfl, heap.mem_of_pop hpop,
      heap.perm hpop, heap.greatest hpop⟩

theorem top_doc_of_first {w : PostingWrapper} (hgood : w.Good)
    (hR : ∃ rest, R = w.entry :: rest) :
    top_doc (some w) = (R.head?.map PostingEntry.doc_id).getD END := by
  obtain ⟨rest, rfl⟩ := hR
  exact hgood.current_doc_eq

theorem linear_at_holds (h : Leaves wrappers R) : (linear_at wrappers started).Holds R where
  leaves := h
  min_idx := by
    rintro _ _ ⟨⟩ _
    rfl
  current := by
    show top_doc wrappers[least_wrapper wrappers]? = _
    by_cases hempty : wrappers = []
    · rw [hempty, h.nil_iff.1 hempty]
      rfl
    · obtain ⟨w, hw, hleast⟩ := least_index_spec PostingWrapper.current_doc hempty
      grind [least_wrapper, top_doc_of_first, Leaves.good, Leaves.first]

theorem heap_at_holds (h : Leaves wrappers R) : (heap_at heap wrappers started).Holds R where
  leaves := h
  min_idx := by
    rintro _ _ ⟨⟩
  current := by
    show top_doc (heap.peek wrappers) = _
    by_cases hempty : wrappers = []
    · rw [h.nil_iff.1 hempty, hempty, heap.peek_nil]
      rfl
    · obtain ⟨w, -, -, hpeek, hmem, -, hleast⟩ := @peek_spec heap _ hempty
      rw [hpeek]
      exact top_doc_of_first (h.good w hmem) (h.first hmem hleast)

theorem Holds.current_wrapper (h : it.Holds (e :: R)) :
    ∃ w ∈ it.wrappers, it.current_wrapper heap = some w ∧ w.entry = e := by
  have hne : it.wrappers ≠ [] := fun hempty => by
    have := h.leaves.nil_iff.1 hempty
    exact absurd this (by simp)
  rcases it with ⟨wrappers | wrappers, current_doc, started⟩
  · obtain ⟨w, hw, hleast⟩ := least_index_spec PostingWrapper.current_doc hne
    have hmem := List.mem_of_getElem? hw
    obtain ⟨rest, hrest⟩ := h.leaves.first hmem hleast
    refine ⟨w, hmem, ?_, (List.cons.inj hrest).1.symm⟩
    obtain rfl := h.min_idx _ _ rfl hne
    exact hw
  · obtain ⟨w, -, -, hpeek, hmem, -, hleast⟩ := @peek_spec heap _ hne
    obtain ⟨rest, hrest⟩ := h.leaves.first hmem hleast
    exact ⟨w, hmem, hpeek, (List.cons.inj hrest).1.symm⟩

theorem Holds.current_wrapper_nil (h : it.Holds []) : it.current_wrapper heap = none := by
  have hempty := h.leaves.nil_iff.2 rfl
  rcases it with ⟨wrappers | wrappers, current_doc, started⟩
  · obtain rfl : wrappers = [] := hempty
    rfl
  · obtain rfl : wrappers = [] := hempty
    exact heap.peek_nil

/-! ## Advances -/

theorem holds_nil (h : Leaves it.wrappers []) (hcurrent : it.current_doc = END) : it.Holds [] where
  leaves := h
  min_idx := by
    grind [wrappers, Leaves.nil_iff]
  current := hcurrent

theorem Holds.advance_nil (h : it.Holds []) :
    ∃ it', it.advance heap = some (false, it') ∧ it'.Holds [] ∧ it'.started = it.started := by
  have hempty := h.leaves.nil_iff.2 rfl
  refine ⟨{ it with current_doc := END }, ?_, holds_nil h.leaves rfl, rfl⟩
  rcases it with ⟨wrappers | wrappers, current_doc, started⟩
  · obtain rfl : wrappers = [] := hempty
    rfl
  · obtain rfl : wrappers = [] := hempty
    rw [advance]
    dsimp only
    rw [heap.pop_nil]

theorem advance_at_perm {w : PostingWrapper} {idx : ℕ} (h : wrappers[idx]? = some w)
    (next : Option PostingWrapper) :
    (advance_at wrappers idx next).Perm (next.toList ++ wrappers.eraseIdx idx) := by
  rcases next with _ | moved
  · exact swapRemove_perm h
  · exact List.set_perm_cons_eraseIdx (List.getElem?_eq_some_iff.1 h).1 moved

theorem isEmpty_eq (h : Leaves wrappers R) : wrappers.isEmpty = R.isEmpty := by
  rw [Bool.eq_iff_iff, List.isEmpty_iff, List.isEmpty_iff]
  exact h.nil_iff

/-- **An advance takes the first entry away.** -/
theorem Holds.advance (h : it.Holds (e :: R)) :
    ∃ it', it.advance heap = some (!R.isEmpty, it') ∧ it'.Holds R ∧
      it'.started = it.started := by
  have hne : it.wrappers ≠ [] := fun hempty => List.cons_ne_nil _ _ (h.leaves.nil_iff.1 hempty)
  rcases it with ⟨wrappers | wrappers, current_doc, started⟩
  · -- the scan: the wrapper at `min_idx` is moved on or removed, and the least found again
    rename_i min_idx
    obtain ⟨w, hw, hleast⟩ := least_index_spec PostingWrapper.current_doc hne
    obtain rfl : min_idx = least_wrapper wrappers := h.min_idx _ _ rfl hne
    have hmem := List.mem_of_getElem? hw
    obtain ⟨tail, hfirst⟩ := h.leaves.first hmem hleast
    have hleaves := h.leaves.move hmem (List.cons.inj hfirst).1.symm (perm_cons_eraseIdx hw)
      (advance_at_perm hw (moved w.iter))
    obtain ⟨after, hafter⟩ : ∃ after, advance_at wrappers (least_wrapper wrappers)
        (moved w.iter) = after := ⟨_, rfl⟩
    have hat : wrappers[least_wrapper wrappers]? = some w := hw
    have hempty : ¬ wrappers.isEmpty = true := fun hempty => hne (List.isEmpty_iff.1 hempty)
    replace hleaves : Leaves after R := hafter ▸ hleaves
    rw [MergedCursor.advance]
    dsimp only
    rw [if_neg hempty, hat, Option.map_some, hafter, isEmpty_eq hleaves]
    rcases R with _ | ⟨e', R⟩
    · exact ⟨_, rfl, holds_nil hleaves rfl, rfl⟩
    · exact ⟨_, rfl, linear_at_holds hleaves, rfl⟩
  · -- the heap: the top is popped, and pushed again if it is on an entry
    obtain ⟨w, rest, hpop, -, hmem, hperm, hleast⟩ := @peek_spec heap _ hne
    obtain ⟨tail, hfirst⟩ := h.leaves.first hmem hleast
    have hleaves := h.leaves.move hmem (List.cons.inj hfirst).1.symm hperm (List.Perm.refl _)
    have htop : (heap.peek ((moved w.iter).toList ++ rest)).isSome = !R.isEmpty := by
      rw [← isEmpty_eq hleaves]
      rcases hlist : (moved w.iter).toList ++ rest with _ | ⟨first, others⟩
      · rw [heap.peek_nil]
        rfl
      · obtain ⟨top, -, -, hpeek, -⟩ := @peek_spec heap _ (List.cons_ne_nil first others)
        rw [hpeek]
        rfl
    refine ⟨heap_at heap ((moved w.iter).toList ++ rest) started, ?_, heap_at_holds hleaves, rfl⟩
    have hpop' : heap.pop wrappers = some (w, rest) := hpop
    rw [MergedCursor.advance]
    dsimp only
    rw [hpop', ← htop]

/-! ## Skips -/

theorem Holds.doc_id_lt (h : it.Holds R) (he : e ∈ R) : e.doc_id < END := by
  obtain ⟨w, -, he⟩ := List.mem_flatMap.1 (h.leaves.perm.mem_iff.2 he)
  obtain ⟨i, -, rfl⟩ := List.mem_map.1 he
  have hlt := (w.iter.data.doc_ids.getD i 0).toNat_lt
  show (w.iter.data.doc_ids.getD i 0).toNat < END
  rw [END]
  omega

theorem Holds.length_le (h : it.Holds R) :
    R.length ≤ (it.wrappers.map fun w => w.iter.data.doc_ids.length).sum := by
  rw [← h.leaves.perm.length_eq, left, List.length_flatMap]
  refine List.sum_le_sum fun w _ => ?_
  rw [entries, DecodedPostingList.rows_from, List.length_map, List.length_range']
  exact Nat.sub_le _ _

theorem filter_eq_self_of_head {target : ℕ}
    (hsorted : (e :: R).Pairwise fun a b => a.doc_id < b.doc_id) (hle : target ≤ e.doc_id) :
    ((e :: R).filter fun e => target ≤ e.doc_id) = e :: R := by
  grind [List.filter_eq_self, List.pairwise_cons]

/-- **The loop of a skip** takes away what lies below the target. -/
theorem Holds.skip_loop (target : ℕ) : ∀ {R : List PostingEntry} {turns : ℕ} {it : MergedCursor},
    it.Holds R → R.length < turns →
    ∃ it', skip_loop heap target turns it =
        some (!(R.filter fun e => target ≤ e.doc_id).isEmpty, it') ∧
      it'.Holds (R.filter fun e => target ≤ e.doc_id) ∧ it'.started = it.started
  | [], turns + 1, it, h, _ => by
      rw [MergedCursor.skip_loop]
      by_cases hbelow : it.doc_id < target
      · obtain ⟨it', hadvance, hholds, hstarted⟩ := @Holds.advance_nil heap _ h
        grind
      · have hend : it.doc_id = END := h.current
        grind
  | e :: R, turns + 1, it, h, hturns => by
      have hdoc : it.doc_id = e.doc_id := h.current
      rw [MergedCursor.skip_loop, hdoc]
      by_cases hbelow : e.doc_id < target
      · obtain ⟨it', hadvance, hholds, hstarted⟩ := @Holds.advance heap _ _ _ h
        have hfilter : ((e :: R).filter fun e => target ≤ e.doc_id) =
            R.filter fun e => target ≤ e.doc_id :=
          List.filter_cons_of_neg (by simpa using hbelow)
        rw [if_pos hbelow, hadvance, hfilter]
        rcases R with _ | ⟨next, R⟩
        · exact ⟨it', rfl, hholds, hstarted⟩
        · obtain ⟨it'', hloop, hholds', hstarted'⟩ := Holds.skip_loop target hholds
            (Nat.lt_of_succ_lt_succ hturns)
          grind
      · have hself := filter_eq_self_of_head h.leaves.sorted (not_lt.1 hbelow)
        rw [if_neg hbelow, hself, decide_eq_true (h.doc_id_lt List.mem_cons_self).ne]
        exact ⟨it, rfl, h, rfl⟩

/-! ## Calls -/

/-- **The cursor is on what the stream has left.** -/
structure Shows (it : MergedCursor) (s : PostingStream) : Prop where
  holds : it.Holds s.left
  started : it.started = s.started

variable {s : PostingStream}

theorem Holds.start (h : it.Holds R) (started : Bool) : Holds { it with started } R where
  leaves := h.leaves
  min_idx := h.min_idx
  current := h.current

theorem Shows.call (h : it.Shows s) (call : CursorCall) :
    ∃ it', it.call heap call = some ((s.call call).shows.answer, it') ∧
      it'.Shows (s.call call) := by
  rcases call with _ | target
  · show ∃ it', it.next heap = some (s.next.shows.answer, it') ∧ it'.Shows s.next
    rw [MergedCursor.next, PostingStream.next, h.started]
    by_cases hstarted : s.started = true
    · rw [if_pos hstarted, if_pos hstarted]
      have hholds := h.holds
      have hsame := h.started
      rcases hleft : s.left with _ | ⟨e, R⟩
      · rw [hleft] at hholds
        obtain ⟨it', hadvance, hholds', hstarted'⟩ := @Holds.advance_nil heap _ hholds
        exact ⟨it', hadvance, hholds', hstarted'.trans hsame⟩
      · rw [hleft] at hholds
        obtain ⟨it', hadvance, hholds', hstarted'⟩ := @Holds.advance heap _ _ _ hholds
        exact ⟨it', hadvance, hholds', hstarted'.trans hsame⟩
    · rw [if_neg hstarted, if_neg hstarted, isEmpty_eq h.holds.leaves]
      exact ⟨_, rfl, h.holds.start true, rfl⟩
  · obtain ⟨it', hskip, hholds, hstarted⟩ := @Holds.skip_loop heap target _ _ _
      (h.holds.start true) (Nat.lt_succ_of_le h.holds.length_le)
    exact ⟨it', hskip, hholds, hstarted⟩

theorem Shows.shows (h : it.Shows s) :
    (⟨s.shows.answer, it.doc_id, it.term_freq heap, it.positions heap⟩ : CursorShows) =
      s.shows := by
  have hholds := h.holds
  have hdoc : it.doc_id = s.shows.doc_id := hholds.current
  rw [hdoc, term_freq, positions, PostingStream.shows]
  rcases hleft : s.left with _ | ⟨e, R⟩
  · grind [Holds.current_wrapper_nil]
  · rw [hleft] at hholds
    obtain ⟨w, hw, hcurrent, rfl⟩ := @Holds.current_wrapper heap _ _ _ hholds
    have hgood := hholds.leaves.good w hw
    rw [hcurrent]
    dsimp only
    rw [InvertedIndexPostingIterator.term_freq_of_lt hgood.data hgood.on,
      InvertedIndexPostingIterator.positions_of_lt hgood.data hgood.on]
    rfl

/-- **Any calls show of the cursor what they show of the stream.** -/
theorem Shows.trace (h : it.Shows s) (calls : List CursorCall) :
    it.trace heap calls = some (s.trace calls) := by
  induction calls generalizing it s with
  | nil => rfl
  | cons call calls ih =>
      obtain ⟨it', hcall, hshows⟩ := @Shows.call heap _ _ h call
      rw [MergedCursor.trace, hcall, Option.bind_some, ih hshows, Option.map_some,
        hshows.shows, PostingStream.trace]

/-! ## From the start -/

variable {lists : List DecodedPostingList}

theorem left_filterMap_moved (hlists : ∀ list ∈ lists, list.Aligned) :
    left ((lists.map InvertedIndexPostingIterator.from_decoded_soa).filterMap moved) =
        lists.flatMap DecodedPostingList.rows ∧
      ∀ w ∈ (lists.map InvertedIndexPostingIterator.from_decoded_soa).filterMap moved, w.Good := by
  induction lists with
  | nil => exact ⟨rfl, fun _ hw => absurd hw List.not_mem_nil⟩
  | cons list lists ih =>
      rw [List.forall_mem_cons] at hlists
      obtain ⟨hfirst, hnew⟩ := moved_new hlists.1
      grind [left]

theorem foldl_cons_eq_reverse {α : Type} (xs : List α) :
    xs.foldl (fun entries w => w :: entries) [] = xs.reverse := by simp

theorem new_shows (hlists : ∀ list ∈ lists, list.Aligned) {merged : List PostingEntry}
    (hperm : (lists.flatMap DecodedPostingList.rows).Perm merged)
    (hsorted : merged.Pairwise fun a b => a.doc_id < b.doc_id) (threshold : ℕ) :
    (new heap threshold (lists.map InvertedIndexPostingIterator.from_decoded_soa)).Shows
      { left := merged, started := false } := by
  obtain ⟨hleft, hgood⟩ := left_filterMap_moved hlists
  have hleaves : Leaves ((lists.map InvertedIndexPostingIterator.from_decoded_soa).filterMap
      moved) merged := ⟨hgood, by rw [hleft]; exact hperm, hsorted⟩
  rw [new]
  split
  · exact ⟨linear_at_holds hleaves, rfl⟩
  · rw [foldl_cons_eq_reverse]
    refine ⟨heap_at_holds ⟨fun w hw => hgood w (List.mem_reverse.1 hw), ?_, hsorted⟩, rfl⟩
    exact (left_perm (List.reverse_perm _)).trans hleaves.perm

end MergedCursor

open MergedCursor

/-- **The merged iterator streams the merge of its lists.** Of decoded lists
without a common document there is one ascending list of all entries, and
any calls see of the iterator what they see of its stream: however ties in
the heap are broken, and whatever the number of lists from which there is a
heap. -/
theorem merged_cursor_streams (lists : List DecodedPostingList)
    (hlists : ∀ list ∈ lists, list.Aligned)
    (hdisjoint : (lists.flatMap DecodedPostingList.doc_ids).Nodup) :
    ∃ merged : List PostingEntry, merged.Perm (lists.flatMap DecodedPostingList.rows) ∧
      merged.Pairwise (fun a b => a.doc_id < b.doc_id) ∧
      ∀ (heap : PriorityHeap PostingWrapper PostingWrapper.le) (threshold : ℕ)
        (calls : List CursorCall),
        (MergedCursor.new heap threshold
            (lists.map InvertedIndexPostingIterator.from_decoded_soa)).trace heap calls =
          some (PostingStream.trace { left := merged, started := false } calls) := by
  have hperm := List.mergeSort_perm (lists.flatMap DecodedPostingList.rows)
    fun a b => decide (a.doc_id ≤ b.doc_id)
  have hle := @List.pairwise_mergeSort PostingEntry (fun a b => decide (a.doc_id ≤ b.doc_id))
    (fun a b c hab hbc => decide_eq_true ((of_decide_eq_true hab).trans (of_decide_eq_true hbc)))
    (fun a b => by simpa using Nat.le_total a.doc_id b.doc_id)
    (lists.flatMap DecodedPostingList.rows)
  have hdocs : (lists.flatMap DecodedPostingList.rows).map PostingEntry.doc_id =
      (lists.flatMap DecodedPostingList.doc_ids).map UInt32.toNat := by
    rw [List.map_flatMap, List.map_flatMap]
    exact congrArg (lists.flatMap ·) (funext fun list => DecodedPostingList.docs_rows)
  have hne := List.pairwise_map.1 ((hperm.map PostingEntry.doc_id).nodup_iff.2
    (hdocs ▸ hdisjoint.map fun _ _ => UInt32.toNat_inj.1))
  have hsorted := hle.imp₂ (fun a b hle hne => lt_of_le_of_ne (of_decide_eq_true hle) hne) hne
  exact ⟨_, hperm, hsorted, fun heap threshold calls =>
    (new_shows hlists hperm.symm hsorted threshold).trace calls⟩

/-- A list of documents, each with the frequency 1. -/
def once_each (doc_ids : List UInt32) : DecodedPostingList where
  term := ""
  doc_ids := doc_ids
  frequencies := doc_ids.map fun _ => 1
  weights := []
  positions := none
  skip_levels := []
  total_frequency := 0
  doc_frequency := 0

theorem aligned_once_each {doc_ids : List UInt32} (h : doc_ids.Pairwise (· < ·)) :
    (once_each doc_ids).Aligned where
  ascending := h
  frequencies := List.length_map _
  positions := fun _ hnone => absurd hnone (by simp [once_each])

theorem merged_cursor_streams_two : ∃ merged : List PostingEntry,
    merged.Perm ([once_each [1, 4], once_each [2]].flatMap DecodedPostingList.rows) ∧
      merged.Pairwise (fun a b => a.doc_id < b.doc_id) ∧
      ∀ (heap : PriorityHeap PostingWrapper PostingWrapper.le) (threshold : ℕ)
        (calls : List CursorCall),
        (MergedCursor.new heap threshold ([once_each [1, 4], once_each [2]].map
            InvertedIndexPostingIterator.from_decoded_soa)).trace heap calls =
          some (PostingStream.trace { left := merged, started := false } calls) :=
  merged_cursor_streams [once_each [1, 4], once_each [2]]
    (fun list hlist => by
      rcases List.mem_cons.1 hlist with rfl | hlist
      · exact aligned_once_each (by decide)
      · rw [List.mem_singleton.1 hlist]
        exact aligned_once_each (by decide)) (by decide)

end MergedStream

end Laurus
