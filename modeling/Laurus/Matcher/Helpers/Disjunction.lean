import Laurus.Matcher.Helpers.Leaves

/-!
# A disjunction of ordered cursors is one

Every entry of the heap is a live cursor whose documents are no earlier than
the disjunction's, and none has to reach back past it. What remains is the
union over the entries, so the least entry is on the first document of all.
-/

namespace Laurus

variable {σ : Type} {ops : MatcherOps σ} (V : MatcherView ops)

namespace DisjunctionMatcher

/-- What remains in a heap. -/
def heapRem (heap : List σ) : Finset ℕ := heap.foldr (fun e R => V.rem e ∪ R) ∅

variable {V} {d c p : ℕ} {heap buffer others : List σ} {e least : σ}
variable {m : DisjunctionMatcher σ}

theorem mem_heapRem : d ∈ heapRem V heap ↔ ∃ e ∈ heap, d ∈ V.rem e := by
  induction heap with
  | nil => simp [heapRem]
  | cons e heap ih =>
      rw [heapRem, List.foldr_cons, Finset.mem_union, ← heapRem, ih]
      simp

theorem mem_heapRem_append :
    d ∈ heapRem V (buffer ++ heap) ↔ d ∈ heapRem V buffer ∨ d ∈ heapRem V heap := by
  simp only [mem_heapRem, List.mem_append]
  grind

theorem mem_heapRem_cons : d ∈ heapRem V (e :: heap) ↔ d ∈ V.rem e ∨ d ∈ heapRem V heap := by
  rw [heapRem, List.foldr_cons, Finset.mem_union, ← heapRem]

/-! ## The heap -/

theorem pop_eq_none : pop ops heap = none ↔ heap = [] := by
  cases heap with
  | nil => simp [pop]
  | cons e heap =>
      rw [pop]
      grind

theorem pop_spec : ∀ {heap : List σ} {least : σ} {others : List σ},
    pop ops heap = some (least, others) → heap.Perm (least :: others) ∧
      ∀ e ∈ heap, ops.doc_id least ≤ ops.doc_id e := by
  intro heap
  induction heap with
  | nil => intro least others h; simp [pop] at h
  | cons e heap ih =>
      intro least others h
      rw [pop] at h
      split at h
      · rename_i hnone
        rw [pop_eq_none.1 hnone]
        cases h
        exact ⟨.refl _, by simp⟩
      · rename_i least' others' hsome
        obtain ⟨hperm, hle⟩ := ih hsome
        split at h <;> rename_i hlt <;> cases h
        · refine ⟨(hperm.cons e).trans (.swap _ _ _), fun x hx => ?_⟩
          grind
        · refine ⟨.refl _, fun x hx => ?_⟩
          grind

/-- A live entry of a heap from which `p` can still be reached. -/
structure Entry (V : MatcherView ops) (p : ℕ) (e : σ) : Prop where
  inv : V.Inv e
  live : (V.rem e).Nonempty
  low : V.low e ≤ p

theorem Entry.mem (h : Entry V p e) : ops.doc_id e ∈ V.rem e := by
  rw [V.head_eq h.inv]
  exact first_mem h.live

theorem Entry.le (h : Entry V p e) (hd : d ∈ V.rem e) : ops.doc_id e ≤ d := by
  rw [V.head_eq h.inv]
  exact first_le hd

/-- An entry that has been advanced stays in the heap exactly when it is live. -/
theorem live_iff {b : Bool} (he : V.Inv e) (hb : b = true ↔ (V.rem e).Nonempty) :
    (b && ! ops.is_exhausted e) = true ↔ (V.rem e).Nonempty := by
  have hended := V.ended_iff he
  grind

/-! ## The invariant -/

/-- The states a disjunction reaches. -/
structure Good (V : MatcherView ops) (m : DisjunctionMatcher σ) : Prop where
  entry : ∀ e ∈ m.heap, Entry V m.current_doc e
  current : m.current_doc = first END (heapRem V m.heap)
  ended : m.exhausted = true ↔ m.heap = []

theorem lt_top_of_entries (h : ∀ e ∈ heap, Entry V p e) (hd : d ∈ heapRem V heap) : d < END := by
  obtain ⟨e, he, hd⟩ := mem_heapRem.1 hd
  exact V.lt_top (h e he).inv hd

theorem heapRem_eq_empty (h : ∀ e ∈ heap, Entry V p e) : heapRem V heap = ∅ ↔ heap = [] := by
  constructor
  · intro hempty
    by_contra hne
    obtain ⟨e, he⟩ := List.exists_mem_of_ne_nil heap hne
    have hmem : ops.doc_id e ∈ heapRem V heap := mem_heapRem.2 ⟨e, he, (h e he).mem⟩
    rw [hempty] at hmem
    cases hmem
  · rintro rfl
    rfl

theorem good_settle (h : ∀ e ∈ heap, Entry V p e) (hp : ∀ d ∈ heapRem V heap, p ≤ d) :
    Good V (settle ops heap) ∧ (settle ops heap).heap = heap := by
  rw [settle]
  split
  · rename_i least others hpop
    obtain ⟨hperm, hle⟩ := pop_spec hpop
    have hmem : least ∈ heap := hperm.mem_iff.2 List.mem_cons_self
    have hleast : ops.doc_id least ∈ heapRem V heap := mem_heapRem.2 ⟨least, hmem, (h _ hmem).mem⟩
    have hfirst : first END (heapRem V heap) = ops.doc_id least := by
      refine first_eq hleast fun d hd => ?_
      obtain ⟨e, he, hd⟩ := mem_heapRem.1 hd
      exact le_trans (hle e he) ((h e he).le hd)
    refine ⟨⟨fun e he => ⟨(h e he).inv, (h e he).live, ?_⟩, hfirst.symm, ?_⟩, rfl⟩
    · exact le_trans (h e he).low (hp _ hleast)
    grind
  · rename_i hpop
    rw [pop_eq_none.1 hpop]
    exact ⟨⟨by simp, by simp [heapRem, first_empty], by simp⟩, rfl⟩

theorem good_new {matchers : List σ} (h : ∀ e ∈ matchers, V.Inv e ∧ V.low e = 0) :
    Good V (new ops matchers) ∧
      ∀ d, d ∈ heapRem V (new ops matchers).heap ↔ ∃ e ∈ matchers, d ∈ V.rem e := by
  have hlive : ∀ e ∈ matchers.filter (fun m => ! ops.is_exhausted m), Entry V 0 e := by
    intro e he
    obtain ⟨hmem, hnot⟩ := List.mem_filter.1 he
    obtain ⟨hinv, hlow⟩ := h e hmem
    refine ⟨hinv, ?_, hlow.le⟩
    rw [Bool.not_eq_true', ← Bool.not_eq_true, V.ended_iff hinv] at hnot
    exact Finset.nonempty_iff_ne_empty.2 hnot
  obtain ⟨hgood, hheap⟩ := good_settle hlive fun d _ => Nat.zero_le d
  refine ⟨hgood, fun d => ?_⟩
  rw [new, hheap, mem_heapRem]
  constructor
  · grind
  · rintro ⟨e, he, hd⟩
    refine ⟨e, List.mem_filter.2 ⟨he, ?_⟩, hd⟩
    rw [Bool.not_eq_true', ← Bool.not_eq_true, V.ended_iff (h e he).1]
    exact Finset.ne_empty_of_mem hd

/-! ## The loops -/

theorem advance_loop_spec : ∀ turns heap buffer, heap.length ≤ turns →
    (∀ e ∈ heap, Entry V c e) → (∀ d ∈ heapRem V heap, c ≤ d) →
    (∀ e ∈ buffer, Entry V (c + 1) e) → (∀ d ∈ heapRem V buffer, c < d) →
    ∃ heap' buffer', advance_loop ops c turns heap buffer = some (heap', buffer') ∧
      (∀ e ∈ buffer' ++ heap', Entry V (c + 1) e) ∧
      ∀ d, d ∈ heapRem V (buffer' ++ heap') ↔ d ∈ heapRem V (buffer ++ heap) ∧ c < d := by
  intro turns
  induction turns with
  | zero =>
      intro heap buffer hlen _ _ hbuffer hpast
      have hnil : heap = [] := List.length_eq_zero_iff.1 (by omega)
      subst hnil
      refine ⟨[], buffer, rfl, by simpa using hbuffer, fun d => ?_⟩
      grind
  | succ turns ih =>
      intro heap buffer hlen hheap hfrom hbuffer hpast
      rw [advance_loop]
      split
      · rename_i hpop
        rw [pop_eq_none.1 hpop]
        grind
      · rename_i entry others hpop
        obtain ⟨hperm, hle⟩ := pop_spec hpop
        have hentry := hheap entry (hperm.mem_iff.2 List.mem_cons_self)
        have hothers : ∀ e ∈ others, e ∈ heap := fun e he =>
          hperm.mem_iff.2 (List.mem_cons_of_mem _ he)
        have hsplit : ∀ d, d ∈ heapRem V heap ↔ d ∈ V.rem entry ∨ d ∈ heapRem V others := by
          grind [mem_heapRem]
        have hlen' : others.length ≤ turns := by
          have := hperm.length_eq
          grind
        split
        · rename_i hat
          obtain ⟨b, entry', hnext, hinv', hrem', hb, hlow', -⟩ := V.next_spec hentry.inv
          have hlow'' : V.low entry' ≤ c + 1 := by
            have h1 := hlow' hentry.live
            have h2 := hentry.low
            omega
          simp only [hnext, Option.bind_eq_bind, Option.bind_some]
          rw [hat] at hrem'
          split
          · rename_i hmore
            have hlive := (live_iff hinv' hb).1 hmore
            obtain ⟨heap', buffer', hloop, hgood, hmem⟩ := ih others (entry' :: buffer) hlen'
              (fun e he => hheap e (hothers e he)) (fun d hd => hfrom d ((hsplit d).2 (Or.inr hd)))
              (by
                intro e he
                rcases List.mem_cons.1 he with rfl | he
                · exact ⟨hinv', hlive, hlow''⟩
                · exact hbuffer e he)
              (by
                grind [mem_heapRem_cons])
            grind [mem_heapRem_cons, mem_heapRem_append]
          · rename_i hmore
            have hempty : V.rem entry' = ∅ :=
              Finset.not_nonempty_iff_eq_empty.1 fun hne => hmore ((live_iff hinv' hb).2 hne)
            obtain ⟨heap', buffer', hloop, hgood, hmem⟩ := ih others buffer hlen'
              (fun e he => hheap e (hothers e he)) (fun d hd => hfrom d ((hsplit d).2 (Or.inr hd)))
              hbuffer hpast
            refine ⟨heap', buffer', hloop, hgood, fun d => ?_⟩
            have hnot : c < d → d ∉ V.rem entry := by
              intro hlt hd
              have : d ∈ V.rem entry' := hrem' ▸ Finset.mem_filter.2 ⟨hd, hlt⟩
              grind
            grind [mem_heapRem_append]
        · rename_i hat
          -- the least entry is past `c`, and so are the others
          have hlt : ∀ d ∈ heapRem V heap, c < d := by
            intro d hd
            have h1 := hfrom _ ((hsplit _).2 (Or.inl hentry.mem))
            obtain ⟨e, he, hd⟩ := mem_heapRem.1 hd
            have h2 := hle e he
            have h3 := (hheap e he).le hd
            omega
          refine ⟨heap, buffer, rfl, fun e he => ?_, fun d => ?_⟩
          · rcases List.mem_append.1 he with he | he
            · exact hbuffer e he
            · have h := hheap e he
              exact ⟨h.inv, h.live, h.low.trans (Nat.le_succ c)⟩
          · rw [mem_heapRem_append]
            grind

theorem skip_loop_spec {t : ℕ} : ∀ heap buffer,
    (∀ e ∈ heap, Entry V t e) → (∀ e ∈ buffer, Entry V t e) →
    ∃ buffer', skip_loop ops t heap buffer = some buffer' ∧ (∀ e ∈ buffer', Entry V t e) ∧
      ∀ d, d ∈ heapRem V buffer' ↔ d ∈ heapRem V buffer ∨ d ∈ heapRem V heap ∧ t ≤ d := by
  intro heap
  induction heap with
  | nil =>
      intro buffer _ hbuffer
      exact ⟨buffer, rfl, hbuffer, fun d => by simp [heapRem]⟩
  | cons entry heap ih =>
      intro buffer hheap hbuffer
      have hentry := hheap entry List.mem_cons_self
      obtain ⟨b, entry', hskip, hinv', hrem', hb, hlow'⟩ := V.skip_spec hentry.inv hentry.low
      have hlow'' : V.low entry' ≤ t := by
        have := hentry.low
        omega
      rw [skip_loop]
      simp only [hskip, Option.bind_eq_bind, Option.bind_some]
      split
      · rename_i hmore
        have hlive := (live_iff hinv' hb).1 hmore
        obtain ⟨buffer', hloop, hgood, hmem⟩ := ih (entry' :: buffer)
          (fun e he => hheap e (List.mem_cons_of_mem _ he))
          (by
            intro e he
            rcases List.mem_cons.1 he with rfl | he
            · exact ⟨hinv', hlive, hlow''⟩
            · exact hbuffer e he)
        refine ⟨buffer', hloop, hgood, fun d => ?_⟩
        rw [hmem, mem_heapRem_cons, mem_heapRem_cons, hrem', Finset.mem_filter, or_and_right,
          or_assoc, or_left_comm]
      · rename_i hmore
        have hempty : V.rem entry' = ∅ :=
          Finset.not_nonempty_iff_eq_empty.1 fun hne => hmore ((live_iff hinv' hb).2 hne)
        obtain ⟨buffer', hloop, hgood, hmem⟩ := ih buffer
          (fun e he => hheap e (List.mem_cons_of_mem _ he)) hbuffer
        refine ⟨buffer', hloop, hgood, fun d => ?_⟩
        have hnot : t ≤ d → d ∉ V.rem entry := by
          intro hle hd
          have : d ∈ V.rem entry' := hrem' ▸ Finset.mem_filter.2 ⟨hd, hle⟩
          grind
        rw [hmem, mem_heapRem_cons]
        grind

/-! ## The view -/

/-- The calls on a disjunction. -/
def calls (ops : MatcherOps σ) : MatcherOps (DisjunctionMatcher σ) where
  doc_id m := m.current_doc
  is_exhausted m := m.exhausted
  next := next ops
  skip_to := skip_to ops

theorem Good.more_iff (h : Good V m) :
    (! m.exhausted) = true ↔ (heapRem V m.heap).Nonempty := by
  rw [Bool.not_eq_true', ← Bool.not_eq_true, h.ended, Finset.nonempty_iff_ne_empty, ne_eq,
    heapRem_eq_empty h.entry]

/-- **A disjunction enumerates the union.** -/
def view (V : MatcherView ops) : MatcherView (calls ops) where
  Inv := Good V
  rem m := heapRem V m.heap
  low _ := 0
  lt_top := fun h hd => lt_top_of_entries h.entry hd
  low_le := fun _ _ => Nat.zero_le _
  head_eq := fun h => h.current
  ended_iff := by
    intro m h
    exact h.ended.trans (heapRem_eq_empty h.entry).symm
  next_spec := by
    intro m h
    cases hex : m.exhausted with
    | true =>
        have hempty : heapRem V m.heap = ∅ := by rw [h.ended.1 hex]; rfl
        refine ⟨false, m, by simp [calls, next, hex], h, ?_, ?_, fun _ => Nat.zero_le _,
          fun _ => le_rfl⟩
        · rw [hempty, Finset.filter_empty]
        · simp [hempty]
    | false =>
        obtain ⟨heap', buffer', hloop, hentries, hmem⟩ := advance_loop_spec (V := V)
          (c := m.current_doc) m.heap.length m.heap [] le_rfl h.entry
          (fun d hd => h.current ▸ first_le hd) (by simp) (by simp [heapRem])
        obtain ⟨hgood, hheap⟩ := good_settle hentries fun d hd => ((hmem d).1 hd).2
        refine ⟨! (settle ops (buffer' ++ heap')).exhausted, settle ops (buffer' ++ heap'), ?_,
          hgood, ?_, hgood.more_iff, fun _ => Nat.zero_le _, fun _ => le_rfl⟩
        · simp [calls, next, advance_to_next_doc, hex, hloop]
        · rw [hheap]
          ext d
          rw [hmem, List.nil_append, Finset.mem_filter]
          rfl
  skip_spec := by
    intro m t h _
    by_cases hstay : m.exhausted = true ∨ t ≤ m.current_doc
    · refine ⟨! m.exhausted, m, by simp [calls, skip_to, hstay], h, ?_, h.more_iff,
        Nat.zero_le _⟩
      rcases hstay with hex | hle
      · rw [h.ended.1 hex]
        rfl
      · rw [h.current] at hle
        exact (filter_le_eq_self hle).symm
    · have hlt : m.current_doc < t := by
        omega
      obtain ⟨buffer', hloop, hentries, hmem⟩ := skip_loop_spec (V := V) (t := t) m.heap []
        (fun e he => ⟨(h.entry e he).inv, (h.entry e he).live, (h.entry e he).low.trans hlt.le⟩)
        (by simp)
      have hmem' : ∀ d, d ∈ heapRem V buffer' ↔ d ∈ heapRem V m.heap ∧ t ≤ d := fun d => by
        rw [hmem d]
        simp [heapRem]
      obtain ⟨hgood, hheap⟩ := good_settle hentries fun d hd => ((hmem' d).1 hd).2
      refine ⟨! (settle ops buffer').exhausted, settle ops buffer', ?_, hgood, ?_, hgood.more_iff,
        Nat.zero_le _⟩
      · simp only [calls, skip_to, if_neg hstay, hloop, Option.bind_eq_bind, Option.bind_some]
        rfl
      grind

end DisjunctionMatcher

end Laurus
