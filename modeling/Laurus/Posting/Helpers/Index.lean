import Laurus.Posting.Helpers.RoundTrip

/-!
# The lists an index builds

Each list of an index stays one the encoder takes, with its two totals kept
(`Kept`), while every posting added fits it (`Fits`): its document is one of
32 bits, its frequency counts its positions, and where its document is in
the list already, both postings have positions or neither has, and the
frequencies add up to one.
-/

namespace Laurus

namespace PostingList

/-! ## Putting a posting in -/

/-- A list in order of its documents. -/
def Ascending (postings : List Posting) : Prop := postings.Pairwise fun p q => p.doc_id < q.doc_id

/-- **What `put` does**: the posting goes in between, or is merged. -/
theorem put_cases (posting : Posting) : ∀ {postings : List Posting}, Ascending postings →
    (∃ before after, postings = before ++ after ∧
      put posting postings = (before ++ posting :: after, true) ∧
      (∀ p ∈ before, p.doc_id < posting.doc_id) ∧ ∀ p ∈ after, posting.doc_id < p.doc_id) ∨
    ∃ before existing after, postings = before ++ existing :: after ∧
      existing.doc_id = posting.doc_id ∧
      put posting postings = (before ++ merge existing posting :: after, false)
  | [], _ => Or.inl ⟨[], [], rfl, rfl, by simp, by simp⟩
  | existing :: postings, hasc => by
      obtain ⟨hhead, hrest⟩ := List.pairwise_cons.1 hasc
      rw [put]
      by_cases hlt : existing.doc_id < posting.doc_id
      · rw [if_pos hlt]
        rcases put_cases posting hrest with
          ⟨before, after, rfl, hput, hbefore, hafter⟩ | ⟨before, e, after, rfl, he, hput⟩
        · grind
        grind
      · rw [if_neg hlt]
        by_cases heq : existing.doc_id = posting.doc_id
        · exact Or.inr ⟨[], existing, postings, rfl, heq, by rw [if_pos heq]; rfl⟩
        · have hgt : posting.doc_id < existing.doc_id :=
            UInt64.lt_of_le_of_ne (UInt64.not_lt.1 hlt) (Ne.symm heq)
          refine Or.inl ⟨[], existing :: postings, rfl, by rw [if_neg heq]; rfl, by simp, ?_⟩
          grind

/-- A posting that fits a list. -/
structure Fits (postings : List Posting) (posting : Posting) : Prop where
  doc_id : posting.doc_id.toNat < 2 ^ 32
  frequency : FrequencyFits posting
  /-- A document that is there has positions as the new posting has, and room
  in its frequency. -/
  repeats : ∀ p ∈ postings, p.doc_id = posting.doc_id →
    p.positions.isSome = posting.positions.isSome ∧
      p.frequency.toNat + posting.frequency.toNat < 2 ^ 32

@[simp] theorem merge_doc_id (existing posting : Posting) :
    (merge existing posting).doc_id = existing.doc_id := rfl

variable {posting : Posting} {postings : List Posting} {list : PostingList}

theorem merge_frequency {existing : Posting}
    (h : existing.frequency.toNat + posting.frequency.toNat < 2 ^ 32) :
    (merge existing posting).frequency.toNat =
      existing.frequency.toNat + posting.frequency.toNat := by
  show (existing.frequency + posting.frequency).toNat = _
  rw [UInt32.toNat_add, Nat.mod_eq_of_lt h]

theorem merge_frequency_fits {existing : Posting} (he : FrequencyFits existing)
    (hp : FrequencyFits posting) (hsome : existing.positions.isSome = posting.positions.isSome)
    (h : existing.frequency.toNat + posting.frequency.toNat < 2 ^ 32) :
    FrequencyFits (merge existing posting) := by
  intro ps hps
  rw [merge_frequency h]
  cases hnew : posting.positions with
  | none =>
      rw [hnew] at hsome
      have hnone : existing.positions = none := by simpa using hsome
      simp [merge, hnew, hnone] at hps
  | some new_positions =>
      rw [hnew] at hsome
      obtain ⟨positions, hold⟩ := Option.isSome_iff_exists.1 hsome
      simp only [merge, hnew, hold, Option.mem_def, Option.some.injEq] at hps
      rw [← hps, List.length_append, he positions hold, hp new_positions hnew]

/-! ## A list -/

/-- The sum of the frequencies. -/
def frequencies_sum (postings : List Posting) : ℕ :=
  (postings.map fun p => p.frequency.toNat).sum

/-- What holds of a list of an index. -/
structure Kept (list : PostingList) : Prop where
  ascending : Ascending list.postings
  docs_fit : DocsFit list.postings
  frequencies : ∀ p ∈ list.postings, FrequencyFits p
  term : list.term.toByteArray.data.toList.length < 2 ^ 64
  doc_frequency : list.doc_frequency.toNat = list.postings.length
  total_frequency : list.total_frequency.toNat = frequencies_sum list.postings

theorem docs_ascending (hfit : DocsFit postings)
    (h : Ascending postings) : (docs postings).Pairwise (· < ·) := by
  rw [docs, List.pairwise_map]
  refine h.imp_of_mem fun {p q} hp hq hlt => ?_
  rw [UInt32.lt_iff_toNat_lt, UInt64.toNat_toUInt32, UInt64.toNat_toUInt32,
    Nat.mod_eq_of_lt (hfit p hp), Nat.mod_eq_of_lt (hfit q hq)]
  exact hlt

theorem Kept.encodable (h : list.Kept) : list.Encodable :=
  ⟨h.docs_fit, docs_ascending h.docs_fit h.ascending, h.frequencies, h.term⟩

theorem frequencies_sum_le (postings : List Posting) :
    frequencies_sum postings ≤ postings.length * (2 ^ 32 - 1) := by
  induction postings with
  | nil => simp [frequencies_sum]
  | cons p postings ih =>
      have hp := p.frequency.toNat_lt
      rw [frequencies_sum] at ih ⊢
      grind

theorem totals_lt (hfit : DocsFit postings) (h : Ascending postings) :
    postings.length < 2 ^ 64 ∧ frequencies_sum postings < 2 ^ 64 := by
  have hlen : (docs postings).length ≤ 2 ^ 32 - 0 :=
    length_le_of_ascending 0 (docs_ascending hfit h) (fun _ _ => Nat.zero_le _) (Nat.zero_le _)
  rw [length_docs] at hlen
  have hsum := frequencies_sum_le postings
  omega

theorem frequencies_sum_append (l l' : List Posting) :
    frequencies_sum (l ++ l') = frequencies_sum l + frequencies_sum l' := by
  simp [frequencies_sum]

theorem frequencies_sum_cons (p : Posting) (l : List Posting) :
    frequencies_sum (p :: l) = p.frequency.toNat + frequencies_sum l := by
  simp [frequencies_sum]

/-- What a put keeps, and what it adds. -/
structure PutKeeps (postings out : List Posting) (fresh : Bool) (posting : Posting) : Prop where
  ascending : Ascending out
  docs_fit : DocsFit out
  frequencies : ∀ p ∈ out, FrequencyFits p
  length : out.length = postings.length + fresh.toNat
  sum : frequencies_sum out = frequencies_sum postings + posting.frequency.toNat

theorem put_keeps (hasc : Ascending postings)
    (hfit : DocsFit postings) (hfreq : ∀ p ∈ postings, FrequencyFits p)
    (h : Fits postings posting) :
    PutKeeps postings (put posting postings).1 (put posting postings).2 posting := by
  rcases put_cases posting hasc with
    ⟨before, after, rfl, hput, hbefore, hafter⟩ | ⟨before, existing, after, rfl, heq, hput⟩
  · have hold := List.pairwise_append.1 hasc
    rw [hput]
    refine ⟨?_, ?_, ?_, ?_, ?_⟩
    · refine List.pairwise_append.2 ⟨hold.1, List.pairwise_cons.2 ⟨hafter, hold.2.1⟩, ?_⟩
      grind
    · intro p hp
      rcases List.mem_append.1 hp with hp | hp
      · exact hfit p (List.mem_append_left _ hp)
      · rcases List.mem_cons.1 hp with rfl | hp
        · exact h.doc_id
        · exact hfit p (List.mem_append_right _ hp)
    · grind [Fits.frequency]
    · grind
    · rw [frequencies_sum_append, frequencies_sum_cons, frequencies_sum_append]
      omega
  · have hmem : existing ∈ before ++ existing :: after := by simp
    obtain ⟨hsome, hlt⟩ := h.repeats existing hmem heq
    rw [hput]
    refine ⟨?_, ?_, ?_, ?_, ?_⟩
    · have hmap : (before ++ merge existing posting :: after).map Posting.doc_id =
          (before ++ existing :: after).map Posting.doc_id := by simp
      have hkeys : ∀ l : List Posting, Ascending l ↔ (l.map Posting.doc_id).Pairwise (· < ·) :=
        fun l => List.pairwise_map.symm
      grind
    · intro p hp
      rcases List.mem_append.1 hp with hp | hp
      · exact hfit p (List.mem_append_left _ hp)
      · rcases List.mem_cons.1 hp with rfl | hp
        · exact hfit existing hmem
        · exact hfit p (List.mem_append_right _ (List.mem_cons_of_mem _ hp))
    · grind [merge_frequency_fits, Fits.frequency]
    · simp
    grind [frequencies_sum_append, frequencies_sum_cons, merge_frequency]

theorem kept_new {term : String} (h : term.toByteArray.data.toList.length < 2 ^ 64) :
    (new term).Kept :=
  ⟨List.Pairwise.nil, by simp [DocsFit, new], by simp [new], h, rfl, rfl⟩

theorem Kept.add_posting (h : list.Kept)
    (hp : Fits list.postings posting) : (list.add_posting posting).Kept := by
  have hput := put_keeps h.ascending h.docs_fit h.frequencies hp
  obtain ⟨hlen, hsum⟩ := totals_lt hput.docs_fit hput.ascending
  rw [hput.length] at hlen
  refine ⟨hput.ascending, hput.docs_fit, hput.frequencies, h.term, ?_, ?_⟩
  · show UInt64.toNat (if (put posting list.postings).2 then _ else _) = _
    rw [PostingList.add_posting]
    dsimp only
    rw [hput.length, ← h.doc_frequency]
    rw [← h.doc_frequency] at hlen
    cases hfresh : (put posting list.postings).2 with
    | true =>
        rw [hfresh] at hlen
        exact Nat.mod_eq_of_lt hlen
    | false => rfl
  grind [total_frequency, UInt32.toNat_toUInt64, PostingList.add_posting, PutKeeps.sum,
    UInt64.toNat_add]

/-! ## Dropping documents -/

theorem sum_frequencies_eq (postings : List Posting) (h : frequencies_sum postings < 2 ^ 64) :
    (sum_frequencies postings).toNat = frequencies_sum postings := by
  have hgen : ∀ (postings : List Posting) (sum : UInt64),
      sum.toNat + frequencies_sum postings < 2 ^ 64 →
        (postings.foldl (fun sum p => sum + p.frequency.toUInt64) sum).toNat =
          sum.toNat + frequencies_sum postings := by
    intro postings
    induction postings with
    | nil => intro sum _; rfl
    | cons p postings ih =>
        grind [frequencies_sum_cons, UInt64.toNat_add, UInt32.toNat_toUInt64]
  grind [sum_frequencies]

theorem Kept.retain_list (h : list.Kept) (keep : UInt64 → Bool) :
    (TermPostingIndex.retain_list keep list).Kept := by
  have hasc : Ascending (list.postings.filter fun p => keep p.doc_id) := h.ascending.filter _
  have hfit : DocsFit (list.postings.filter fun p => keep p.doc_id) :=
    fun p hp => h.docs_fit p (List.mem_of_mem_filter hp)
  obtain ⟨hlen, hsum⟩ := totals_lt hfit hasc
  refine ⟨hasc, hfit, fun p hp => h.frequencies p (List.mem_of_mem_filter hp), h.term, ?_, ?_⟩
  · exact StructReader.toNat_ofNat_length hlen
  · exact sum_frequencies_eq _ hsum

end PostingList

/-! ## An index -/

namespace TermPostingIndex

open PostingList

/-- Every list of the index is kept, under its own term. -/
def Kept (index : TermPostingIndex) : Prop :=
  ∀ entry ∈ index.terms, entry.2.term = entry.1 ∧ entry.2.Kept

/-- A posting that fits the list its term has. -/
structure FitsTerm (index : TermPostingIndex) (term : String) (posting : Posting) : Prop where
  term_fits : term.toByteArray.data.toList.length < 2 ^ 64
  fresh : Fits [] posting
  present : ∀ entry ∈ index.terms, entry.1 = term → Fits entry.2.postings posting

theorem kept_new : new.Kept := fun _ h => by cases h

variable {index : TermPostingIndex}

theorem Kept.add_posting {term : String} {posting : Posting}
    (h : index.Kept) (hp : index.FitsTerm term posting) : (index.add_posting term posting).Kept := by
  intro entry hentry
  rw [TermPostingIndex.add_posting] at hentry
  split at hentry
  · obtain ⟨old, hold, rfl⟩ := List.mem_map.1 hentry
    obtain ⟨hterm, hkept⟩ := h old hold
    split
    · exact ⟨hterm, hkept.add_posting (hp.present old hold ‹_›)⟩
    · exact ⟨hterm, hkept⟩
  · rcases List.mem_cons.1 hentry with rfl | hold
    · exact ⟨rfl, (PostingList.kept_new hp.term_fits).add_posting hp.fresh⟩
    · exact h entry hold

/-- The postings of a document fit, each after the ones before it. -/
def FitsDocument (doc_id : UInt64) :
    TermPostingIndex → List (String × UInt32 × Option (List UInt32)) → Prop
  | _, [] => True
  | index, entry :: terms =>
    index.FitsTerm entry.1 (posting_of doc_id entry) ∧
      FitsDocument doc_id (index.add_posting entry.1 (posting_of doc_id entry)) terms

theorem Kept.add_document {doc_id : UInt64}
    {terms : List (String × UInt32 × Option (List UInt32))} (h : index.Kept)
    (hfits : FitsDocument doc_id index terms) : (index.add_document doc_id terms).Kept := by
  have hfold : (terms.foldl (fun index entry =>
      index.add_posting entry.1 (posting_of doc_id entry)) index).Kept := by
    induction terms generalizing index with
    | nil => exact h
    | cons entry terms ih =>
        obtain ⟨hentry, hrest⟩ := hfits
        exact ih (h.add_posting hentry) hrest
  exact hfold

theorem Kept.retain_docs (h : index.Kept) (keep : UInt64 → Bool) :
    (index.retain_docs keep).1.Kept := by
  intro entry hentry
  obtain ⟨hmem, -⟩ := List.mem_filter.1 hentry
  obtain ⟨old, hold, rfl⟩ := List.mem_map.1 hmem
  obtain ⟨hterm, hkept⟩ := h old hold
  exact ⟨hterm, hkept.retain_list keep⟩

/-- The calls whose postings fit. -/
def Admits (index : TermPostingIndex) : Call → Prop
  | .add_posting term posting => index.FitsTerm term posting
  | .add_document doc_id terms => FitsDocument doc_id index terms
  | .retain_docs _ => True

theorem kept_step {index' : TermPostingIndex} {call : Call} (h : index.Kept)
    (hstep : Step.guarded Admits step index call index') : index'.Kept := by
  obtain ⟨hadmits, rfl⟩ := hstep
  cases call with
  | add_posting term posting => exact h.add_posting hadmits
  | add_document doc_id terms => exact h.add_document hadmits
  | retain_docs keep => exact h.retain_docs keep

theorem kept_run {calls : List Call}
    (hrun : Run (Step.guarded Admits step) new calls index) : index.Kept :=
  hrun.invariant Kept kept_step kept_new

end TermPostingIndex

end Laurus
