import Laurus.Lexical.Helpers.AnalyzedTerms

/-!
# Phrases in fields with many texts

The elements of an array are laid one after another, with the gap between (`element_bases`). A
phrase goes on from a position within its slop: with less slop than the gap that is a
position of the same element, and what comes first there comes first in the field
(`Stretch.next_iff`). So a phrase that matches the field matches an element alone, and a
phrase that matches an element matches the field whatever its slop (`text_array_spec`).
-/

namespace Laurus

variable {gap base slop : ℕ} {elements : List (List Token)} {tokens : List Token}
  {store_positions : Bool}

/-! ## Where the elements lie -/

/-- How many positions a text takes. -/
def span (tokens : List Token) : ℕ :=
  ((tokens_to_analyzed_terms tokens).getLast?.map fun last => last.position + 1).getD 0

/-- The terms of a text from a position on. -/
def shifted (base : ℕ) (tokens : List Token) : List AnalyzedTerm :=
  (tokens_to_analyzed_terms tokens).map fun term => { term with position := term.position + base }

/-- The elements with where each starts. -/
def element_bases (gap : ℕ) : ℕ → List (List Token) → List (List Token × ℕ)
  | _, [] => []
  | base, tokens :: rest => (tokens, base) :: element_bases gap (base + span tokens + gap) rest

/-- The positions of the elements stay below the limit of `u32`. -/
def Limited (gap : ℕ) (elements : List (List Token)) : Prop :=
  gap * elements.length + (elements.map span).sum ≤ MAX_POSITION

variable {t : AnalyzedTerm} {e : List Token × ℕ} {slots : List (List String)}

theorem position_lt_span (ht : t ∈ tokens_to_analyzed_terms tokens) :
    t.position < span tokens := by
  rcases List.eq_nil_or_concat' (tokens_to_analyzed_terms tokens) with hnil | ⟨terms, last, heq⟩
  · grind
  · have hsorted := sorted_terms tokens
    grind [span, List.mem_singleton_self]

theorem element_span_eq (h : span tokens ≤ MAX_POSITION) :
    element_span (tokens_to_analyzed_terms tokens) = span tokens := by
  grind [span, element_span, u32_saturating_add]

/-- **The loop lays the elements out.** -/
theorem text_array_loop_eq {idx : ℕ}
    (hlimit : base + gap * elements.length + (elements.map span).sum ≤ MAX_POSITION) :
    text_array_loop gap idx base elements =
      (element_bases gap (if 0 < idx then base + gap else base) elements).flatMap
        fun e => shifted e.2 e.1 := by
  induction elements generalizing idx base with
  | nil => rfl
  | cons tokens rest ih =>
      rw [List.length_cons, List.map_cons, List.sum_cons, Nat.mul_succ] at hlimit
      obtain ⟨start, hstart⟩ : ∃ start, start = if 0 < idx then base + gap else base := ⟨_, rfl⟩
      have hle : start ≤ base + gap := by
        rw [hstart]
        split_ifs <;> omega
      have hbase : (if 0 < idx then u32_saturating_add base gap else base) = start := by
        grind [u32_saturating_add]
      have hspan : element_span (tokens_to_analyzed_terms tokens) = span tokens :=
        element_span_eq (by omega)
      have hnext : u32_saturating_add start (span tokens) = start + span tokens := by
        rw [u32_saturating_add]
        omega
      have hmap : ((tokens_to_analyzed_terms tokens).map fun term =>
          { term with position := u32_saturating_add term.position start }) =
          shifted start tokens := by
        refine List.map_congr_left fun t ht => ?_
        have hlt := position_lt_span ht
        have hsum : u32_saturating_add t.position start = t.position + start := by
          rw [u32_saturating_add]
          omega
        rw [hsum]
      rw [text_array_loop, hbase, hspan, hnext, hmap, ih (by omega), if_pos (Nat.succ_pos idx),
        ← hstart, element_bases, List.flatMap_cons]

theorem text_array_terms_eq (hlimit : Limited gap elements) :
    text_array_terms gap elements = (element_bases gap 0 elements).flatMap fun e => shifted e.2 e.1 := by
  rw [text_array_terms, text_array_loop_eq (by rw [Nat.zero_add]; exact hlimit)]
  rfl

theorem element_bases_fst (gap base : ℕ) (elements : List (List Token)) :
    (element_bases gap base elements).map Prod.fst = elements := by
  induction elements generalizing base with
  | nil => rfl
  | cons tokens rest ih => rw [element_bases, List.map_cons, ih]

theorem le_of_mem_element_bases (he : e ∈ element_bases gap base elements) :
    base ≤ e.2 := by
  induction elements generalizing base with
  | nil => exact absurd he List.not_mem_nil
  | cons tokens rest ih =>
      rcases List.mem_cons.1 he with rfl | he
      · exact Nat.le_refl _
      · have hle := ih he
        omega

theorem pairwise_element_bases (gap base : ℕ) (elements : List (List Token)) :
    (element_bases gap base elements).Pairwise fun e f => e.2 + span e.1 + gap ≤ f.2 := by
  induction elements generalizing base with
  | nil => exact List.Pairwise.nil
  | cons tokens rest ih =>
      exact List.Pairwise.cons (fun f hf => le_of_mem_element_bases hf) (ih _)

theorem mem_shifted : t ∈ shifted base tokens ↔
    ∃ s ∈ tokens_to_analyzed_terms tokens, t = { s with position := s.position + base } := by
  rw [shifted, List.mem_map]
  grind

theorem bounds_of_mem_shifted (ht : t ∈ shifted base tokens) :
    base ≤ t.position ∧ t.position < base + span tokens := by
  obtain ⟨s, hs, rfl⟩ := mem_shifted.1 ht
  have hlt := position_lt_span hs
  grind

theorem pairwise_shifted (base : ℕ) (tokens : List Token) :
    (shifted base tokens).Pairwise fun s t => s.position ≤ t.position :=
  List.pairwise_map.2 ((sorted_terms tokens).imp fun hle => Nat.add_le_add_right hle base)

theorem nodup_shifted (base : ℕ) (tokens : List Token) :
    ((shifted base tokens).map fun t => (t.term, t.position)).Nodup := by
  rw [shifted, List.map_map]
  refine List.Nodup.map_on ?_ ((List.Nodup.of_map _ (nodup_terms tokens)))
  intro s hs t ht heq
  obtain ⟨hterm, hposition⟩ := Prod.mk.inj heq
  exact List.inj_on_of_nodup_map (nodup_terms tokens) hs ht
    (Prod.ext hterm (Nat.add_right_cancel hposition))

/-! ## What a phrase finds in a stretch -/

/-- The positions of a slot in a field and in an element of it that starts at `base`. -/
structure Stretch (gap base span : ℕ) (whole part : List ℕ) : Prop where
  inside : ∀ y ∈ part, y < span
  keeps : ∀ y ∈ part, y + base ∈ whole
  only : ∀ x ∈ whole, x < base ∨ (∃ y ∈ part, x = y + base) ∨ base + span + gap ≤ x

namespace Stretch

variable {size : ℕ} {whole part : List ℕ}

theorem next_of_part (h : Stretch gap base size whole part) (hwhole : whole.Pairwise (· < ·))
    (hpart : part.Pairwise (· < ·)) {y z : ℕ} (hnext : next_in_window part y slop = some z) :
    next_in_window whole (y + base) slop = some (z + base) := by
  obtain ⟨hz, hlow, hhigh, hleast⟩ := (next_in_window_eq_some hpart).1 hnext
  refine (next_in_window_eq_some hwhole).2 ⟨h.keeps z hz, by omega, by omega, fun m hm hle => ?_⟩
  have hsize := h.inside z hz
  rcases h.only m hm with hbefore | ⟨w, hw, rfl⟩ | hafter
  · omega
  · grind
  · omega

/-- With less slop than the gap, what comes next in the field is of the same element. -/
theorem next_of_whole (h : Stretch gap base size whole part) (hwhole : whole.Pairwise (· < ·))
    (hpart : part.Pairwise (· < ·)) (hslop : slop < gap) {y x : ℕ} (hy : y < size)
    (hnext : next_in_window whole (y + base) slop = some x) :
    ∃ z, next_in_window part y slop = some z ∧ x = z + base := by
  obtain ⟨hx, hlow, hhigh, hleast⟩ := (next_in_window_eq_some hwhole).1 hnext
  rcases h.only x hx with hbefore | ⟨z, hz, rfl⟩ | hafter
  · omega
  · refine ⟨z, (next_in_window_eq_some hpart).2 ⟨hz, by omega, by omega, fun m hm hle => ?_⟩, rfl⟩
    have hmin := hleast (m + base) (h.keeps m hm) (by omega)
    omega
  · omega

end Stretch

theorem in_windows_of_part {size : ℕ} {wholes parts : List (List ℕ)}
    (h : List.Forall₂ (Stretch gap base size) wholes parts)
    (hwhole : ∀ l ∈ wholes, l.Pairwise (· < ·)) (hpart : ∀ l ∈ parts, l.Pairwise (· < ·))
    {y z : ℕ} (hfollow : in_windows slop parts y = some z) :
    in_windows slop wholes (y + base) = some (z + base) := by
  induction h generalizing y with
  | nil =>
      obtain rfl := Option.some.inj hfollow
      rfl
  | @cons whole part wholes parts hstretch _ ih =>
      grind [Option.bind_eq_some_iff, in_windows, Stretch.next_of_part]

/-- A phrase goes on in an element as in the field, with less slop than the gap. -/
theorem in_windows_of_whole {size : ℕ} {wholes parts : List (List ℕ)}
    (h : List.Forall₂ (Stretch gap base size) wholes parts)
    (hwhole : ∀ l ∈ wholes, l.Pairwise (· < ·)) (hpart : ∀ l ∈ parts, l.Pairwise (· < ·))
    (hslop : slop < gap) {y x : ℕ} (hy : y < size)
    (hfollow : in_windows slop wholes (y + base) = some x) :
    ∃ z, in_windows slop parts y = some z := by
  induction h generalizing y with
  | nil => exact ⟨y, rfl⟩
  | @cons whole part wholes parts hstretch _ ih =>
      obtain ⟨m, hnext, hrest⟩ := Option.bind_eq_some_iff.1 hfollow
      obtain ⟨w, hw, rfl⟩ := hstretch.next_of_whole (hwhole _ List.mem_cons_self)
        (hpart _ List.mem_cons_self) hslop hy hnext
      grind [next_in_window_eq_some, Stretch.inside, in_windows]

/-! ## The elements of a field -/

theorem mem_text_array_terms (hlimit : Limited gap elements) :
    t ∈ text_array_terms gap elements ↔
      ∃ e ∈ element_bases gap 0 elements, t ∈ shifted e.2 e.1 := by
  rw [text_array_terms_eq hlimit, List.mem_flatMap]

theorem apart_of_mem_element_bases {f : List Token × ℕ} (he : e ∈ element_bases gap base elements)
    (hf : f ∈ element_bases gap base elements) :
    e = f ∨ e.2 + span e.1 + gap ≤ f.2 ∨ f.2 + span f.1 + gap ≤ e.2 := by
  refine List.Pairwise.forall_of_forall_of_flip
    (R := fun e f : List Token × ℕ =>
      e = f ∨ e.2 + span e.1 + gap ≤ f.2 ∨ f.2 + span f.1 + gap ≤ e.2)
    (fun _ _ => Or.inl rfl) ?_ ?_ he hf
  · exact (pairwise_element_bases gap base elements).imp fun h => Or.inr (Or.inl h)
  · exact (pairwise_element_bases gap base elements).imp fun h => Or.inr (Or.inr h)

/-- **An element's stretch of the field.** -/
theorem stretch_of_mem_element_bases (hlimit : Limited gap elements)
    (he : e ∈ element_bases gap 0 elements) (slot : List String) :
    Stretch gap e.2 (span e.1)
      (slot_positions store_positions (text_array_terms gap elements) slot)
      (slot_positions store_positions (tokens_to_analyzed_terms e.1) slot) where
  inside y hy := by
    obtain ⟨_, s, hs, _, rfl⟩ := mem_slot_positions.1 hy
    exact position_lt_span hs
  keeps y hy := by
    obtain ⟨hstored, s, hs, hslot, rfl⟩ := mem_slot_positions.1 hy
    exact mem_slot_positions.2 ⟨hstored, { s with position := s.position + e.2 },
      (mem_text_array_terms hlimit).2 ⟨e, he, mem_shifted.2 ⟨s, hs, rfl⟩⟩, hslot, rfl⟩
  only x hx := by
    obtain ⟨hstored, t, ht, hslot, rfl⟩ := mem_slot_positions.1 hx
    obtain ⟨f, hf, ht⟩ := (mem_text_array_terms hlimit).1 ht
    obtain ⟨hlow, hhigh⟩ := bounds_of_mem_shifted ht
    rcases apart_of_mem_element_bases he hf with rfl | hbefore | hafter
    · obtain ⟨s, hs, rfl⟩ := mem_shifted.1 ht
      exact Or.inr (Or.inl ⟨s.position,
        mem_slot_positions.2 ⟨hstored, s, hs, hslot, rfl⟩, rfl⟩)
    · exact Or.inr (Or.inr (by omega))
    · exact Or.inl (by omega)

theorem stretches_of_mem_element_bases (hlimit : Limited gap elements)
    (he : e ∈ element_bases gap 0 elements) (slots : List (List String)) :
    List.Forall₂ (Stretch gap e.2 (span e.1))
      (slots.map (slot_positions store_positions (text_array_terms gap elements)))
      (slots.map (slot_positions store_positions (tokens_to_analyzed_terms e.1))) := by
  rw [List.forall₂_map_left_iff, List.forall₂_map_right_iff]
  exact List.forall₂_same.2 fun slot _ => stretch_of_mem_element_bases hlimit he slot

theorem pairwise_of_mem_slots {terms : List AnalyzedTerm} :
    ∀ l ∈ slots.map (slot_positions store_positions terms), l.Pairwise (· < ·) := by
  simp [pairwise_slot_positions]

theorem find_phrase_positions_of_part (hlimit : Limited gap elements)
    (he : e ∈ element_bases gap 0 elements)
    (h : PhraseMatcher.find_phrase_positions
      (slots.map (slot_positions store_positions (tokens_to_analyzed_terms e.1))) slop ≠ []) :
    PhraseMatcher.find_phrase_positions
      (slots.map (slot_positions store_positions (text_array_terms gap elements))) slop ≠ [] := by
  rcases slots with _ | ⟨first, rest⟩
  · exact absurd rfl h
  obtain ⟨y, hy⟩ := List.exists_mem_of_ne_nil _ h
  obtain ⟨hmem, z, hfollow⟩ := mem_find_phrase_positions.1 hy
  refine List.ne_nil_of_mem (a := y + e.2) (mem_find_phrase_positions.2
    ⟨(stretch_of_mem_element_bases hlimit he first).keeps y hmem, z + e.2, ?_⟩)
  exact in_windows_of_part (stretches_of_mem_element_bases hlimit he rest) pairwise_of_mem_slots
    pairwise_of_mem_slots hfollow

/-- With less slop than the gap, a phrase that starts in the field starts in an element. -/
theorem find_phrase_positions_of_whole (hlimit : Limited gap elements) (hslop : slop < gap)
    (h : PhraseMatcher.find_phrase_positions
      (slots.map (slot_positions store_positions (text_array_terms gap elements))) slop ≠ []) :
    ∃ e ∈ element_bases gap 0 elements, PhraseMatcher.find_phrase_positions
      (slots.map (slot_positions store_positions (tokens_to_analyzed_terms e.1))) slop ≠ [] := by
  rcases slots with _ | ⟨first, rest⟩
  · exact absurd rfl h
  obtain ⟨x, hx⟩ := List.exists_mem_of_ne_nil _ h
  obtain ⟨hmem, m, hfollow⟩ := mem_find_phrase_positions.1 hx
  obtain ⟨hstored, t, ht, hslot, rfl⟩ := mem_slot_positions.1 hmem
  obtain ⟨e, he, ht⟩ := (mem_text_array_terms hlimit).1 ht
  obtain ⟨s, hs, rfl⟩ := mem_shifted.1 ht
  obtain ⟨z, hz⟩ := in_windows_of_whole (stretches_of_mem_element_bases hlimit he rest)
    pairwise_of_mem_slots pairwise_of_mem_slots hslop (position_lt_span hs) hfollow
  refine ⟨e, he, ?_⟩
  exact List.ne_nil_of_mem (a := s.position) (mem_find_phrase_positions.2
    ⟨mem_slot_positions.2 ⟨hstored, s, hs, hslot, rfl⟩, z, hz⟩)

theorem mem_elements_of_element_bases (he : e ∈ element_bases gap base elements) :
    ∃ i : ℕ, elements[i]? = some e.1 := by
  have hmem : e.1 ∈ (element_bases gap base elements).map Prod.fst := List.mem_map_of_mem he
  rw [element_bases_fst] at hmem
  exact List.mem_iff_getElem?.1 hmem

theorem exists_element_base {i : ℕ} (h : elements[i]? = some tokens) :
    ∃ e ∈ element_bases gap base elements, e.1 = tokens := by
  have hmem : tokens ∈ (element_bases gap base elements).map Prod.fst := by
    rw [element_bases_fst]
    exact List.mem_of_getElem? h
  grind

theorem text_array_terms_singleton (gap : ℕ) (tokens : List Token) :
    text_array_terms gap [tokens] = tokens_to_analyzed_terms tokens := by
  rw [text_array_terms, text_array_loop, text_array_loop, List.append_nil]
  refine (List.map_congr_left fun t ht => ?_).trans (List.map_id _)
  have hbound := terms_bound tokens t ht
  have hsum : u32_saturating_add t.position 0 = t.position := by
    rw [u32_saturating_add]
    omega
  change { t with position := u32_saturating_add t.position 0 } = t
  rw [hsum]

theorem shifted_apart {f : List Token × ℕ} (h : e.2 + span e.1 + gap ≤ f.2) :
    ∀ s ∈ shifted e.2 e.1, ∀ t ∈ shifted f.2 f.1, s.position + gap < t.position := by
  intro s hs t ht
  have hend := (bounds_of_mem_shifted hs).2
  have hstart := (bounds_of_mem_shifted ht).1
  omega

theorem sorted_text_array (hlimit : Limited gap elements) :
    (text_array_terms gap elements).Pairwise fun s t => s.position ≤ t.position := by
  rw [text_array_terms_eq hlimit, List.pairwise_flatMap]
  refine ⟨fun e _ => pairwise_shifted e.2 e.1, (pairwise_element_bases gap 0 elements).imp fun h => ?_⟩
  intro s hs t ht
  have hlt := shifted_apart h s hs t ht
  omega

theorem nodup_text_array (hlimit : Limited gap elements) :
    ((text_array_terms gap elements).map fun t => (t.term, t.position)).Nodup := by
  rw [text_array_terms_eq hlimit, List.Nodup, List.pairwise_map, List.pairwise_flatMap]
  refine ⟨fun e _ => List.pairwise_map.1 (nodup_shifted e.2 e.1),
    (pairwise_element_bases gap 0 elements).imp fun h => ?_⟩
  intro s hs t ht heq
  have hlt := shifted_apart h s hs t ht
  grind

theorem exists_blocks (hlimit : Limited gap elements) :
    ∃ blocks : List (List AnalyzedTerm), text_array_terms gap elements = blocks.flatten ∧
      List.Forall₂ (fun tokens block => ∃ base, block = shifted base tokens) elements blocks ∧
      blocks.Pairwise fun earlier later =>
        ∀ s ∈ earlier, ∀ t ∈ later, s.position + gap < t.position := by
  refine ⟨(element_bases gap 0 elements).map fun e => shifted e.2 e.1, ?_, ?_, ?_⟩
  · rw [text_array_terms_eq hlimit, List.flatMap_def]
  · have hall : List.Forall₂ (fun tokens block => ∃ base, block = shifted base tokens)
        ((element_bases gap 0 elements).map Prod.fst)
        ((element_bases gap 0 elements).map fun e => shifted e.2 e.1) := by
      rw [List.forall₂_map_left_iff, List.forall₂_map_right_iff]
      exact List.forall₂_same.2 fun e _ => ⟨e.2, rfl⟩
    rw [element_bases_fst] at hall
    exact hall
  · exact List.pairwise_map.2 ((pairwise_element_bases gap 0 elements).imp shifted_apart)

variable {reader : PostingsReader} {field : String} {doc : ℕ} {alone : ℕ → PostingsReader}
  {docs : ℕ → ℕ} {positions : List (List String)}

/-- A phrase that matches the field matches an element alone, with less slop than the gap. -/
theorem exists_element_matches (hlimit : Limited gap elements)
    (hwhole : HoldsTerms reader field doc store_positions (text_array_terms gap elements))
    (halone : ∀ (i : ℕ) tokens, elements[i]? = some tokens →
      HoldsTerms (alone i) field (docs i) store_positions (tokens_to_analyzed_terms tokens))
    (hslop : slop < gap) (h : PhraseMatches reader field positions slop doc) :
    ∃ i < elements.length, PhraseMatches (alone i) field positions slop (docs i) := by
  have hlt : ∀ {i : ℕ} {tokens}, elements[i]? = some tokens → i < elements.length :=
    fun h => (List.getElem?_eq_some_iff.1 h).1
  rcases hwhole.matches_iff.1 h with ⟨t, ht, hsingle⟩ | ⟨hplaces, hne⟩
  · obtain ⟨e, he, ht⟩ := (mem_text_array_terms hlimit).1 ht
    obtain ⟨s, hs, rfl⟩ := mem_shifted.1 ht
    obtain ⟨i, hi⟩ := mem_elements_of_element_bases he
    exact ⟨i, hlt hi, (halone i _ hi).matches_iff.2 (Or.inl ⟨s, hs, hsingle⟩)⟩
  · obtain ⟨e, he, hpart⟩ := find_phrase_positions_of_whole hlimit hslop hne
    obtain ⟨i, hi⟩ := mem_elements_of_element_bases he
    exact ⟨i, hlt hi, (halone i _ hi).matches_iff.2 (Or.inr ⟨hplaces, hpart⟩)⟩

theorem matches_of_element (hlimit : Limited gap elements)
    (hwhole : HoldsTerms reader field doc store_positions (text_array_terms gap elements))
    {i : ℕ} {alone : PostingsReader} {doc' : ℕ} (hi : elements[i]? = some tokens)
    (halone : HoldsTerms alone field doc' store_positions (tokens_to_analyzed_terms tokens))
    (h : PhraseMatches alone field positions slop doc') :
    PhraseMatches reader field positions slop doc := by
  obtain ⟨e, he, rfl⟩ := @exists_element_base gap 0 elements tokens i hi
  rcases halone.matches_iff.1 h with ⟨s, hs, hsingle⟩ | ⟨hplaces, hne⟩
  · refine hwhole.matches_iff.2 (Or.inl ⟨{ s with position := s.position + e.2 }, ?_, hsingle⟩)
    grind [mem_text_array_terms, mem_shifted]
  · exact hwhole.matches_iff.2
      (Or.inr ⟨hplaces, find_phrase_positions_of_part hlimit he hne⟩)

/-- **Phrases stay inside one element.** -/
theorem text_array_spec (gap : ℕ) (elements : List (List Token)) (hlimit : Limited gap elements) :
    ((text_array_terms gap elements).Pairwise fun s t => s.position ≤ t.position) ∧
    ((text_array_terms gap elements).map fun t => (t.term, t.position)).Nodup ∧
    (∀ tokens, elements = [tokens] →
      text_array_terms gap elements = tokens_to_analyzed_terms tokens) ∧
    (∃ blocks : List (List AnalyzedTerm), text_array_terms gap elements = blocks.flatten ∧
      List.Forall₂ (fun tokens block => ∃ base, block = shifted base tokens) elements blocks ∧
      blocks.Pairwise fun earlier later =>
        ∀ s ∈ earlier, ∀ t ∈ later, s.position + gap < t.position) ∧
    ∀ (reader : PostingsReader) (field : String) (doc : ℕ) (store_positions : Bool)
      (alone : ℕ → PostingsReader) (docs : ℕ → ℕ) (positions : List (List String)) (slop : ℕ),
      HoldsTerms reader field doc store_positions (text_array_terms gap elements) →
      (∀ (i : ℕ) tokens, elements[i]? = some tokens →
        HoldsTerms (alone i) field (docs i) store_positions (tokens_to_analyzed_terms tokens)) →
      (slop < gap → PhraseMatches reader field positions slop doc →
        ∃ i < elements.length, PhraseMatches (alone i) field positions slop (docs i)) ∧
      ∀ i < elements.length, PhraseMatches (alone i) field positions slop (docs i) →
        PhraseMatches reader field positions slop doc := by
  refine ⟨sorted_text_array hlimit, nodup_text_array hlimit, ?_, exists_blocks hlimit, ?_⟩
  · rintro tokens rfl
    exact text_array_terms_singleton gap tokens
  · intro reader field doc store_positions alone docs positions slop hwhole halone
    refine ⟨exists_element_matches hlimit hwhole halone, fun i hi h => ?_⟩
    have hget := List.getElem?_eq_getElem hi
    exact matches_of_element hlimit hwhole hget (halone i _ hget) h

/-- `red wall` and `old house`. -/
def two_texts : List (List Token) :=
  [[{ text := "red", position := 0 }, { text := "wall", position := 1 }],
    [{ text := "old", position := 0 }, { text := "house", position := 1 }]]

theorem text_array_spec_two_texts :
    Limited 1 two_texts ∧
    ((text_array_terms 1 two_texts).Pairwise fun s t => s.position ≤ t.position) ∧
    ∃ i < two_texts.length, PhraseMatches
      (one_document "body" true (tokens_to_analyzed_terms (two_texts.getD i []))) "body"
      [["red"], ["wall"]] 0 0 := by
  have hlimit : Limited 1 two_texts := by
    rw [Limited]
    decide +kernel
  have hspec := text_array_spec 1 two_texts hlimit
  have hwhole := holds_one_document "body" true (text_array_terms 1 two_texts)
  have hphrase := hspec.2.2.2.2 _ "body" 0 true
    (fun i => one_document "body" true (tokens_to_analyzed_terms (two_texts.getD i [])))
    (fun _ => 0) [["red"], ["wall"]] 0 hwhole fun i tokens hi => by
      have heq : two_texts.getD i [] = tokens := by
        rw [List.getD_eq_getElem?_getD, hi, Option.getD_some]
      rw [heq]
      exact holds_one_document _ _ _
  refine ⟨hlimit, hspec.1, hphrase.1 Nat.one_pos (hwhole.matches_iff.2 (Or.inr ⟨?_, ?_⟩))⟩
  · exact ⟨List.cons_ne_nil _ _, fun term h => absurd (List.cons.inj h).2 (List.cons_ne_nil _ _)⟩
  · decide +kernel

end Laurus
