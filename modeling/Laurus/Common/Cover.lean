import Mathlib

/-!
# How much of its window a list of intervals covers

The window of a list of intervals runs from the first start to the last stop.
Summing lengths counts a position once for each interval over it, and the
interval that starts last need not stop last; how far that is from counting
the positions that no interval covers is `uncovered_le_iff`.
-/

namespace Laurus

namespace Cover

variable {α : Type} (start stop : α → ℕ)

/-- The first start. -/
def window_start (l : List α) : ℕ := ((l.map start).min?).getD 0

/-- The last stop. -/
def window_stop (l : List α) : ℕ := ((l.map stop).max?).getD 0

/-- The positions of the window that some interval covers. -/
def covered (l : List α) : Finset ℕ :=
  (Finset.Ico (window_start start l) (window_stop stop l)).filter fun p =>
    ∃ s ∈ l, start s ≤ p ∧ p < stop s

/-- How many positions of the window no interval covers. -/
def uncovered (l : List α) : ℕ :=
  ((Finset.Ico (window_start start l) (window_stop stop l)).filter fun p =>
    ∀ s ∈ l, ¬(start s ≤ p ∧ p < stop s)).card

/-- How often a position is covered again. -/
def covered_again (l : List α) : ℕ :=
  (l.map fun s => stop s - start s).sum - (covered start stop l).card

/-- Of the intervals that start last, the last one. -/
def starts_last (l : List α) : Option α := l.reverse.argmax start

/-- How far the window goes on after the interval that starts last. -/
def overhang (l : List α) : ℕ :=
  window_stop stop l - ((starts_last start l).map stop).getD 0

variable {start stop} {l : List α} {last : α}

theorem window_start_le {s : α} (h : s ∈ l) : window_start start l ≤ start s := by
  rcases hmin : (l.map start).min? with _ | first
  · rw [List.min?_eq_none_iff, List.map_eq_nil_iff] at hmin
    grind
  · rw [window_start, hmin]
    exact (List.min?_eq_some_iff.1 hmin).2 _ (List.mem_map_of_mem h)

theorem le_window_stop {s : α} (h : s ∈ l) : stop s ≤ window_stop stop l := by
  rcases hmax : (l.map stop).max? with _ | last
  · rw [List.max?_eq_none_iff, List.map_eq_nil_iff] at hmax
    grind
  · rw [window_stop, hmax]
    exact (List.max?_eq_some_iff.1 hmax).2 _ (List.mem_map_of_mem h)

theorem le_window_start (hne : l ≠ []) {a : ℕ} (h : ∀ s ∈ l, a ≤ start s) :
    a ≤ window_start start l := by
  rcases hmin : (l.map start).min? with _ | first
  · rw [List.min?_eq_none_iff, List.map_eq_nil_iff] at hmin
    exact absurd hmin hne
  grind [List.min?_eq_some_iff, window_start]

theorem window_start_eq {s : α} (h : s ∈ l) (hs : ∀ t ∈ l, start s ≤ start t) :
    window_start start l = start s := by
  have hmin : (l.map start).min? = some (start s) :=
    List.min?_eq_some_iff.2 ⟨List.mem_map_of_mem h, fun x hx => by grind⟩
  rw [window_start, hmin, Option.getD_some]

theorem window_stop_eq {s : α} (h : s ∈ l) (hs : ∀ t ∈ l, stop t ≤ stop s) :
    window_stop stop l = stop s := by
  have hmax : (l.map stop).max? = some (stop s) :=
    List.max?_eq_some_iff.2 ⟨List.mem_map_of_mem h, fun x hx => by grind⟩
  rw [window_stop, hmax, Option.getD_some]

theorem card_covered_add_uncovered (l : List α) :
    (covered start stop l).card + uncovered start stop l =
      window_stop stop l - window_start start l := by
  have hnot : ((Finset.Ico (window_start start l) (window_stop stop l)).filter fun p =>
      ∀ s ∈ l, ¬(start s ≤ p ∧ p < stop s)) =
      (Finset.Ico (window_start start l) (window_stop stop l)).filter fun p =>
        ¬∃ s ∈ l, start s ≤ p ∧ p < stop s := by simp
  rw [covered, uncovered, hnot, ← Nat.card_Ico]
  exact Finset.card_filter_add_card_filter_not _

theorem card_covering_le (base : Finset ℕ) (l : List α) :
    (base.filter fun p => ∃ s ∈ l, start s ≤ p ∧ p < stop s).card ≤
      (l.map fun s => stop s - start s).sum := by
  induction l with
  | nil => simp
  | cons s l ih =>
      have hsplit : (base.filter fun p => ∃ t ∈ s :: l, start t ≤ p ∧ p < stop t) =
          (base.filter fun p => start s ≤ p ∧ p < stop s) ∪
            base.filter fun p => ∃ t ∈ l, start t ≤ p ∧ p < stop t := by grind
      have hone : (base.filter fun p => start s ≤ p ∧ p < stop s).card ≤ stop s - start s := by
        rw [← Nat.card_Ico]
        refine Finset.card_le_card fun p hp => ?_
        grind
      grind

theorem card_covered_le (l : List α) :
    (covered start stop l).card ≤ (l.map fun s => stop s - start s).sum :=
  card_covering_le _ l

theorem mem_starts_last (h : starts_last start l = some last) : last ∈ l :=
  List.mem_reverse.1 (List.argmax_mem h)

theorem le_starts_last (h : starts_last start l = some last) {s : α} (hs : s ∈ l) :
    start s ≤ start last := List.le_of_mem_argmax (List.mem_reverse.2 hs) h

/-- **The span up to the interval that starts last, less all lengths**, falls
short of what is uncovered by what is covered again and by the overhang. -/
theorem uncovered_le_iff (hforward : ∀ s ∈ l, start s ≤ stop s)
    (h : starts_last start l = some last) (slop : ℕ) :
    uncovered start stop l ≤ slop + covered_again start stop l + overhang start stop l ↔
      stop last ≤ window_start start l + (l.map fun s => stop s - start s).sum + slop := by
  have hwindow := @card_covered_add_uncovered α start stop l
  have hcovered := @card_covered_le α start stop l
  grind [mem_starts_last, le_window_stop, covered_again, overhang]

theorem uncovered_of_length_le_one (h : l.length ≤ 1) : uncovered start stop l = 0 := by
  rcases l with _ | ⟨s, _ | ⟨t, l⟩⟩
  · rfl
  · simp [uncovered, window_start_eq, window_stop_eq]
  · exact absurd h (by simp)

/-! ## Sorting by start -/

theorem getLast?_orderedInsert (s : α) (l : List α) (hl : l.Pairwise fun a b => start a ≤ start b) :
    (l.orderedInsert (fun a b => start a ≤ start b) s).getLast? =
      some ((l.getLast?).elim s fun last => if start last < start s then s else last) := by
  induction l with
  | nil => rfl
  | cons t l ih =>
      rw [List.pairwise_cons] at hl
      by_cases hst : start s ≤ start t
      · grind
      · grind

theorem pairwise_sorted (l : List α) :
    (l.insertionSort fun a b => start a ≤ start b).Pairwise fun a b => start a ≤ start b :=
  haveI : Std.Total fun a b : α => start a ≤ start b := ⟨fun a b => le_total (start a) (start b)⟩
  haveI : IsTrans α fun a b : α => start a ≤ start b := ⟨fun _ _ _ h h' => h.trans h'⟩
  List.pairwise_insertionSort _ l

/-- **The last of a stable sort** is the last of those that start last. -/
theorem getLast?_insertionSort (l : List α) :
    (l.insertionSort fun a b => start a ≤ start b).getLast? = starts_last start l := by
  induction l with
  | nil => rfl
  | cons s l ih =>
      rw [List.insertionSort_cons, getLast?_orderedInsert s _ (pairwise_sorted l), ih, starts_last,
        starts_last, List.reverse_cons, List.argmax_concat]
      rcases l.reverse.argmax start with _ | last
      · rfl
      grind

theorem head?_insertionSort (l : List α) :
    ((l.insertionSort fun a b => start a ≤ start b).head?.map start).getD 0 =
      window_start start l := by
  have hperm := List.perm_insertionSort (fun a b => start a ≤ start b) l
  have hsorted := @pairwise_sorted α start l
  rcases hsort : l.insertionSort fun a b => start a ≤ start b with _ | ⟨first, rest⟩
  · rw [hsort, List.nil_perm] at hperm
    rw [hperm]
    rfl
  · rw [hsort] at hperm hsorted
    rw [List.pairwise_cons] at hsorted
    refine (window_start_eq (hperm.mem_iff.1 List.mem_cons_self) fun t ht => ?_).symm
    grind

theorem starts_last_of_pairwise (h : l.Pairwise fun a b => start a ≤ start b) :
    starts_last start l = l.getLast? := by
  rw [← getLast?_insertionSort, List.Pairwise.insertionSort_eq h]

end Cover

end Laurus
