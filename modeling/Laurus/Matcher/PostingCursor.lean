import Laurus.Common.OrderedCursor
import Laurus.Matcher.Helpers.PostingIter

/-!
# The posting iterator is a linear scan

Whatever the skip table rules out, the iterator stands where a cursor over
the same documents stands that looks at every posting (`Scans`). Every call
keeps the two together and answers the same (`Scans.call`), so any calls do
(`posting_cursor_linear`). Past the end the iterator may count on; its place
is then the end of the list.

The form without a table (`SoAPostingIterator`) scans itself, and answers
`true` at the end of the list too (`soa_skip_to_scans`).
-/

namespace Laurus

namespace PostingIter

variable {doc_ids : List UInt32} {it : PostingIter} {c : LinearCursor ℕ} {calls : List CursorCall}

/-- Where the iterator stands: on a posting, or at the end. -/
def place (it : PostingIter) : ℕ := min it.position it.doc_ids.length

/-- One call on the iterator. -/
def call (it : PostingIter) : CursorCall → Bool × PostingIter
  | .next => it.next
  | .skip target => it.skip_to target

/-- The iterator after the calls. -/
def run (it : PostingIter) (calls : List CursorCall) : PostingIter :=
  calls.foldl (fun it c => (it.call c).2) it

/-- The cursor that looks at every one of these documents. -/
def linear (doc_ids : List UInt32) : LinearCursor ℕ :=
  { docs := doc_ids.map UInt32.toNat, position := 0, started := false }

/-- The iterator and the linear cursor are over the same documents and at
the same place. -/
structure Scans (it : PostingIter) (c : LinearCursor ℕ) : Prop where
  asc : it.doc_ids.Pairwise (· < ·)
  table : it.skip_levels = build_skip_levels it.doc_ids
  docs : c.docs = it.doc_ids.map UInt32.toNat
  place : it.place = c.position
  /-- Over an empty list the iterator never counts as started. -/
  started : it.doc_ids ≠ [] → c.started = it.started
  fresh : it.started = false → it.position = 0

theorem scans_new (hasc : doc_ids.Pairwise (· < ·)) : Scans (new doc_ids) (linear doc_ids) :=
  { asc := hasc, table := rfl, docs := rfl, place := Nat.zero_min _,
    started := fun _ => rfl, fresh := fun _ => rfl }

theorem Scans.length (h : Scans it c) : c.docs.length = it.doc_ids.length := by
  rw [h.docs, List.length_map]

/-- What is left is what the list has from the place on. -/
theorem drop_place (it : PostingIter) : it.doc_ids.drop it.place = it.live := by
  rw [place, live]
  simp

theorem Scans.left (h : Scans it c) : c.left = it.live.map UInt32.toNat := by
  rw [LinearCursor.left, h.docs, ← h.place, ← List.map_drop, drop_place]

theorem Scans.ascending (h : Scans it c) : c.docs.Pairwise (· < ·) := by
  rw [h.docs, List.pairwise_map]
  exact h.asc.imp fun hlt => UInt32.lt_iff_toNat_lt.1 hlt

theorem Scans.first_next (h : Scans it c) (hne : it.doc_ids ≠ []) (hs : it.started = false) :
    it.next.1 = c.next.1 ∧ Scans it.next.2 c.next.2 := by
  have hpos : 0 < it.doc_ids.length := List.length_pos_iff.2 hne
  have hplace := h.place
  have hlen := h.length
  have hfresh := h.fresh hs
  rw [PostingIter.place] at hplace
  have hcs : c.started = false := (h.started hne).trans hs
  have hon : c.on = true := decide_eq_true (by omega)
  rw [PostingIter.next, if_neg (fun he => hne (List.isEmpty_iff.1 he)), hs, LinearCursor.next, hcs,
    hon]
  exact ⟨rfl, h.asc, h.table, h.docs, h.place, fun _ => rfl, fun _ => hfresh⟩

theorem Scans.later_next (h : Scans it c) (hne : it.doc_ids ≠ []) (hs : it.started = true) :
    it.next.1 = c.next.1 ∧ Scans it.next.2 c.next.2 := by
  have hplace := h.place
  have hlen := h.length
  rw [PostingIter.place] at hplace
  have hcs : c.started = true := (h.started hne).trans hs
  have hone : c.advance.position = min (c.position + 1) c.docs.length := rfl
  have hon : decide (it.position + 1 < it.doc_ids.length) = c.advance.on := by
    show _ = decide (c.advance.position < c.docs.length)
    rw [decide_eq_decide]
    omega
  rw [PostingIter.next, if_neg (fun he => hne (List.isEmpty_iff.1 he)), hs, LinearCursor.next, hcs]
  refine ⟨hon, h.asc, h.table, h.docs, ?_, fun _ => hcs, Bool.noConfusion⟩
  show min (it.position + 1) it.doc_ids.length = c.advance.position
  omega

theorem Scans.empty_next (h : Scans it c) (hempty : it.doc_ids = []) :
    it.next.1 = c.next.1 ∧ Scans it.next.2 c.next.2 := by
  have hzero : c.docs.length = 0 := by rw [h.length, hempty, List.length_nil]
  have hplace := h.place
  have hon : c.on = false := decide_eq_false (by omega)
  have hadvance : c.advance.on = false := decide_eq_false (by
    show ¬ min (c.position + 1) c.docs.length < c.docs.length
    omega)
  have hmoved : c.advance.position = c.position := by
    rw [PostingIter.place, hempty, List.length_nil] at hplace
    show min (c.position + 1) c.docs.length = c.position
    omega
  rw [PostingIter.next, if_pos (List.isEmpty_iff.2 hempty), LinearCursor.next]
  split
  · exact ⟨hadvance.symm, h.asc, h.table, h.docs, h.place.trans hmoved.symm,
      fun hne => absurd hempty hne, h.fresh⟩
  · exact ⟨hon.symm, h.asc, h.table, h.docs, h.place, fun hne => absurd hempty hne, h.fresh⟩

theorem Scans.next (h : Scans it c) : it.next.1 = c.next.1 ∧ Scans it.next.2 c.next.2 := by
  by_cases hempty : it.doc_ids = []
  · exact h.empty_next hempty
  · rcases hs : it.started with _ | _
    · exact h.first_next hempty hs
    · exact h.later_next hempty hs

/-! ## Skips -/

theorem skip_to_spec (hasc : it.doc_ids.Pairwise (· < ·))
    (htable : it.skip_levels = build_skip_levels it.doc_ids) (target : ℕ) :
    (it.skip_to target).2.doc_ids = it.doc_ids ∧
      (it.skip_to target).2.skip_levels = it.skip_levels ∧
      (it.skip_to target).2.started = true ∧
      (it.skip_to target).2.live = it.live.filter (fun d => target ≤ d.toNat) ∧
      (it.skip_to target).1 = decide ((it.skip_to target).2.position < it.doc_ids.length) := by
  rcases Nat.lt_or_ge it.position it.doc_ids.length with hpos | hend
  · exact live_skip_to hasc htable hpos target
  · have hlive : it.live = [] := List.drop_of_length_le hend
    rw [skip_to]
    dsimp only
    split
    · rename_i hzero
      refine ⟨rfl, rfl, rfl, ?_, (decide_eq_false (by omega)).symm⟩
      rw [hlive, List.filter_nil]
      exact hlive
    · split
      · exact ⟨rfl, rfl, rfl, by rw [hlive, live, List.drop_length, List.filter_nil],
          (decide_eq_false (Nat.lt_irrefl _)).symm⟩
      · -- the descent stays at the end, and there is nothing to scan
        have hstart : ({ it with started := true } : PostingIter).skip_via_levels
            (UInt32.ofNat target) = it.doc_ids.length := by
          rw [skip_via_levels, if_pos hend]
        grind [scan, live]

/-- **A skip takes both to the same place**, with the same answer. -/
theorem Scans.skip_to (h : Scans it c) (target : ℕ) :
    (it.skip_to target).1 = (c.skip_to target).1 ∧
      Scans (it.skip_to target).2 (c.skip_to target).2 := by
  obtain ⟨hdocs, hlevels, hstarted, hlive, hanswer⟩ := skip_to_spec h.asc h.table target
  set it' := (it.skip_to target).2 with hit'
  set c' := LinearCursor.seek target { c with started := true } with hc'
  have hdocs' : c'.docs = c.docs := LinearCursor.docs_seek target { c with started := true }
  have hpos : c.position ≤ c.docs.length := by
    rw [← h.place, h.length]
    exact Nat.min_le_right _ _
  have hpos' : c'.position ≤ c.docs.length :=
    LinearCursor.position_seek_le (c := { c with started := true }) target hpos
  have hleft : c'.left = it'.live.map UInt32.toNat := by
    have hseek : c'.left = c.left.filter (target ≤ ·) :=
      LinearCursor.left_seek (c := { c with started := true }) h.ascending
    rw [hseek, h.left, hlive, List.filter_map]
    rfl
  have hplace : it'.place = c'.position := by
    have hlen := congrArg List.length hleft
    grind [length, LinearCursor.left, live, PostingIter.place]
  refine ⟨?_, ?_⟩
  · show _ = decide (c'.position < c'.docs.length)
    rw [hanswer, decide_eq_decide, hdocs', h.length, ← hplace, PostingIter.place, hdocs]
    omega
  · refine ⟨?_, ?_, ?_, hplace, fun _ => ?_, fun hns => ?_⟩
    · rw [hdocs]
      exact h.asc
    · rw [hlevels, hdocs]
      exact h.table
    · show c'.docs = _
      rw [hdocs', hdocs]
      exact h.docs
    · show c'.started = _
      rw [hstarted, hc', LinearCursor.started_seek]
    grind

/-! ## Calls -/

/-- **A call keeps both together**, and both answer the same. -/
theorem Scans.call (h : Scans it c) (t : CursorCall) :
    (it.call t).1 = (c.call t).1 ∧ Scans (it.call t).2 (c.call t).2 := by
  rcases t with _ | target
  · exact h.next
  · exact h.skip_to target

theorem Scans.run (h : Scans it c) (calls : List CursorCall) :
    Scans (it.run calls) (c.run calls) := by
  induction calls generalizing it c with
  | nil => exact h
  | cons t calls ih => exact ih (h.call t).2

theorem doc_ids_call (it : PostingIter) (t : CursorCall) :
    (it.call t).2.doc_ids = it.doc_ids := by
  rcases t with _ | target
  · rw [call, PostingIter.next]
    split_ifs <;> rfl
  grind [call, skip_to]

theorem doc_ids_run (it : PostingIter) (calls : List CursorCall) :
    (it.run calls).doc_ids = it.doc_ids := by
  induction calls generalizing it with
  | nil => rfl
  | cons t calls ih => exact (ih (it.call t).2).trans (doc_ids_call it t)

theorem skip_to_iff (hasc : it.doc_ids.Pairwise (· < ·))
    (htable : it.skip_levels = build_skip_levels it.doc_ids) (target : ℕ) :
    (it.skip_to target).1 = true ↔ ∃ d ∈ it.live, target ≤ d.toNat := by
  obtain ⟨hdocs, -, -, hlive, hanswer⟩ := skip_to_spec hasc htable target
  have hlen : (it.skip_to target).2.live.length =
      it.doc_ids.length - (it.skip_to target).2.position := by
    rw [live, List.length_drop, hdocs]
  rw [hanswer, decide_eq_true_iff]
  constructor
  · intro hpos
    obtain ⟨d, hd⟩ := List.exists_mem_of_length_pos (l := (it.skip_to target).2.live) (by omega)
    grind
  · rintro ⟨d, hd, hle⟩
    have hmem : d ∈ (it.skip_to target).2.live := by grind
    grind

/-- **The posting iterator equals a linear scan.** After any calls, a further
call leaves the iterator where it leaves a cursor that advances one posting
at a time, never behind where it was, and both give the same answer: whether
the iterator is then on a posting and, for a skip, whether a posting from
the place on has a document from the target on. -/
theorem posting_cursor_linear (hasc : doc_ids.Pairwise (· < ·)) (calls : List CursorCall)
    (t : CursorCall) :
    (((new doc_ids).run calls).call t).2.place = (((linear doc_ids).run calls).call t).2.position ∧
      ((new doc_ids).run calls).place ≤ (((new doc_ids).run calls).call t).2.place ∧
      (((new doc_ids).run calls).call t).1 = (((linear doc_ids).run calls).call t).1 ∧
      ((((new doc_ids).run calls).call t).1 = true ↔
        (((new doc_ids).run calls).call t).2.place < doc_ids.length) ∧
      ∀ target, t = .skip target →
        ((((new doc_ids).run calls).call t).1 = true ↔
          ∃ d ∈ doc_ids.drop ((new doc_ids).run calls).place, target ≤ d.toNat) := by
  have h := (scans_new hasc).run calls
  obtain ⟨hanswer, h'⟩ := h.call t
  have hdocs : ((new doc_ids).run calls).doc_ids = doc_ids := doc_ids_run (new doc_ids) calls
  have hlen : doc_ids.length = (((linear doc_ids).run calls).call t).2.docs.length := by
    rw [h'.length, doc_ids_call, hdocs]
  refine ⟨h'.place, ?_, hanswer, ?_, ?_⟩
  · rw [h.place, h'.place]
    refine LinearCursor.position_le_call _ ?_ t
    rw [← h.place, h.length]
    exact Nat.min_le_right _ _
  · rw [hanswer, LinearCursor.call_fst, h'.place, hlen]
    exact decide_eq_true_iff
  · rintro target rfl
    refine (skip_to_iff h.asc h.table target).trans ?_
    rw [← drop_place, hdocs]

/-- The place after each call over three documents, past the end too. -/
theorem posting_cursor_linear_three :
    (((new [2, 5, 9]).run [.skip 3, .next]).call (.skip 10)).2.place =
      (((linear [2, 5, 9]).run [.skip 3, .next]).call (.skip 10)).2.position :=
  have hasc : List.Pairwise (· < ·) ([2, 5, 9] : List UInt32) := by decide
  (posting_cursor_linear hasc [.skip 3, .next] (.skip 10)).1

end PostingIter

end Laurus
