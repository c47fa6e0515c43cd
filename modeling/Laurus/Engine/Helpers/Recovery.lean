import Laurus.Engine.Model.Recovery
import Mathlib.Data.List.Pairwise

/-!
# The log as the meaning of the engine

A document is what the last record that touches it makes of it (`target`).
In a log that is `Linear` a record that adds a document comes after all that
touch an earlier one, and a put or delete deletes exactly the versions that its
id has then, so a document belongs to one external id.
-/

namespace Laurus

namespace Engine

variable {Id Doc : Type}

/-! ## Records -/

/-- A record changes a document. -/
def LogRecord.Touches (r : LogRecord Id Doc) (d : ℕ) : Prop :=
  d ∈ r.doc_ids ∨ ∃ doc, r.upsert = some (d, doc)

/-- What the stores hold after some records. -/
def target (records : List (LogRecord Id Doc)) : Contents Id Doc :=
  patched LogRecord.value records fun _ => none

variable {r r' : LogRecord Id Doc} {l l' : List (LogRecord Id Doc)} {d d' : ℕ} {doc doc' : Doc}
  {id : Id} {v : Option (Id × Doc)}

theorem LogRecord.value_upsert (h : r.upsert = some (d, doc)) :
    r.value d = some (some (r.external_id, doc)) := by
  simp [value, h]

theorem LogRecord.value_eq_none : r.value d = none ↔ ¬ r.Touches d := by
  rcases h : r.upsert with _ | ⟨added, doc⟩
  · simp [value, Touches, h]
  · by_cases hd : d = added
    · simp [value, Touches, h, hd]
    · have hne : added ≠ d := Ne.symm hd
      simp [value, Touches, h, hd, hne]

theorem LogRecord.value_delete (h : d ∈ r.doc_ids) (hup : ∀ doc, r.upsert ≠ some (d, doc)) :
    r.value d = some none := by
  rcases hr : r.upsert with _ | ⟨added, doc⟩
  · simp [value, hr, h]
  · have hd : d ≠ added := by
      rintro rfl
      exact hup doc hr
    simp [value, hr, h, hd]

/-- A record leaves a document to the external id it is of. -/
theorem LogRecord.value_eq_some (h : r.value d = some (some (id, doc))) :
    r.upsert = some (d, doc) ∧ r.external_id = id := by
  rcases hr : r.upsert with _ | ⟨added, doc'⟩
  · simp [value, hr] at h
  · by_cases hd : d = added
    · simp only [value, hr, if_pos hd, Option.some.injEq, Prod.mk.injEq] at h
      rw [hd, h.2]
      exact ⟨rfl, h.1⟩
    · simp [value, hr, hd] at h

/-! ## What is left of a log -/

theorem target_concat_of_touches (h : r.value d = some v) : target (l ++ [r]) d = v := by
  rw [target, patched_apply, settled_concat, h]
  rfl

theorem target_append (h : ∀ r ∈ l', ¬ r.Touches d) : target (l ++ l') d = target l d := by
  have hnone : settled LogRecord.value l' d = none :=
    settled_eq_none.2 fun r hr => LogRecord.value_eq_none.2 (h r hr)
  rw [target, patched_apply, settled_append, hnone, target, patched_apply]
  rfl

/-- **The last record that touches a document** says what it is. -/
theorem target_of_last (h : r.value d = some v) (hlast : ∀ r ∈ l', ¬ r.Touches d) :
    target (l ++ r :: l') d = v := by
  rw [List.append_cons, target_append hlast, target_concat_of_touches h]

theorem exists_of_target (h : target l d = some (id, doc)) :
    ∃ r ∈ l, r.upsert = some (d, doc) ∧ r.external_id = id := by
  induction l using List.reverseRecOn with
  | nil => cases h
  | append_singleton l r ih =>
      by_cases hr : r.Touches d
      · obtain ⟨v, hv⟩ := Option.ne_none_iff_exists'.1 (mt LogRecord.value_eq_none.1 (not_not.2 hr))
        rw [target_concat_of_touches hv] at h
        exact ⟨r, by simp, LogRecord.value_eq_some (hv.trans (congrArg some h))⟩
      · rw [target_append (by simpa using hr)] at h
        obtain ⟨r, hmem, hup⟩ := ih h
        exact ⟨r, List.mem_append_left _ hmem, hup⟩

/-! ## Linear logs -/

/-- Documents are numbered in order, and a record deletes the versions that
its external id has, unless it adds a chunk. -/
structure Linear (l : List (LogRecord Id Doc)) : Prop where
  numbered : l.Pairwise fun r r' => ∀ d doc, r'.upsert = some (d, doc) → ∀ d', r.Touches d' → d' < d
  exact : ∀ before r after, l = before ++ r :: after → ∀ d,
    d ∈ r.doc_ids ↔ r.as_chunk = false ∧ ∃ doc, target before d = some (r.external_id, doc)
  chunk : ∀ r ∈ l, r.as_chunk = true → r.upsert.isSome = true

theorem Linear.nil : Linear ([] : List (LogRecord Id Doc)) :=
  ⟨List.Pairwise.nil, fun before r after h => absurd h.symm (by simp),
    fun r hr => absurd hr List.not_mem_nil⟩

theorem Linear.left (h : Linear (l ++ l')) : Linear l :=
  ⟨(List.pairwise_append.1 h.numbered).1, fun before r after heq =>
    h.exact before r (after ++ l') (by rw [heq, List.append_assoc, List.cons_append]),
    fun r hr => h.chunk r (List.mem_append_left _ hr)⟩

/-- **One more record** keeps a log linear. -/
theorem Linear.concat (h : Linear l)
    (hnumbered : ∀ d doc, r.upsert = some (d, doc) → ∀ r' ∈ l, ∀ d', r'.Touches d' → d' < d)
    (hexact : ∀ d, d ∈ r.doc_ids ↔
      r.as_chunk = false ∧ ∃ doc, target l d = some (r.external_id, doc))
    (hchunk : r.as_chunk = true → r.upsert.isSome = true) : Linear (l ++ [r]) where
  chunk := List.forall_mem_append.2 ⟨h.chunk, List.forall_mem_singleton.2 hchunk⟩
  numbered := List.pairwise_append.2 ⟨h.numbered, List.pairwise_singleton _ _, by
    intro r' hr' r'' hr'' d doc hup
    obtain rfl := List.mem_singleton.1 hr''
    exact hnumbered d doc hup r' hr'⟩
  exact := by
    intro before r' after heq
    rcases List.eq_nil_or_concat' after with rfl | ⟨after, r'', rfl⟩
    · obtain ⟨rfl, hr⟩ := List.append_inj' heq rfl
      obtain rfl := List.singleton_inj.1 hr
      exact hexact
    · rw [← List.cons_append, ← List.append_assoc] at heq
      obtain ⟨rfl, -⟩ := List.append_inj' heq rfl
      exact h.exact before r' after rfl

/-- Two records that add a document are one. -/
theorem Linear.eq_of_upsert (h : Linear l) (hr : r ∈ l) (hr' : r' ∈ l)
    (hup : r.upsert = some (d, doc)) (hup' : r'.upsert = some (d, doc')) : r = r' := by
  obtain ⟨before, after, rfl⟩ := List.append_of_mem hr
  obtain ⟨-, hcons, hbefore⟩ := List.pairwise_append.1 h.numbered
  rcases List.mem_append.1 hr' with hmem | hmem
  · have := hbefore r' hmem r List.mem_cons_self d doc hup d (Or.inr ⟨doc', hup'⟩)
    omega
  · rcases List.mem_cons.1 hmem with rfl | hmem
    · rfl
    · have := (List.pairwise_cons.1 hcons).1 r' hmem d doc' hup' d (Or.inr ⟨doc, hup⟩)
      omega

/-- The record that adds a document that another touches is of its id. -/
theorem Linear.owner (h : Linear l) (hr : r ∈ l) (ht : r.Touches d) :
    ∃ r' ∈ l, r'.external_id = r.external_id ∧ ∃ doc, r'.upsert = some (d, doc) := by
  rcases ht with hdel | ⟨doc, hup⟩
  · obtain ⟨before, after, rfl⟩ := List.append_of_mem hr
    obtain ⟨-, doc, htarget⟩ := (h.exact before r after rfl d).1 hdel
    obtain ⟨r', hr', hup, hid⟩ := exists_of_target htarget
    exact ⟨r', List.mem_append_left _ hr', hid, doc, hup⟩
  · exact ⟨r, hr, rfl, doc, hup⟩

/-- **A document belongs to one external id.** -/
theorem Linear.external_id_eq (h : Linear l) (hr : r ∈ l) (hr' : r' ∈ l) (ht : r.Touches d)
    (ht' : r'.Touches d) : r.external_id = r'.external_id := by
  obtain ⟨o, ho, hid, doc, hup⟩ := h.owner hr ht
  obtain ⟨o', ho', hid', doc', hup'⟩ := h.owner hr' ht'
  rw [← hid, ← hid', h.eq_of_upsert ho ho' hup hup']

/-- A record does not delete what it adds. -/
theorem Linear.upsert_not_mem (h : Linear l) (hr : r ∈ l) (hup : r.upsert = some (d, doc)) :
    d ∉ r.doc_ids := by
  intro hdel
  obtain ⟨before, after, rfl⟩ := List.append_of_mem hr
  obtain ⟨-, doc', htarget⟩ := (h.exact before r after rfl d).1 hdel
  obtain ⟨r', hr', hup', -⟩ := exists_of_target htarget
  have hlt := (List.pairwise_append.1 h.numbered).2.2 r' hr' r List.mem_cons_self d doc hup d
    (Or.inr ⟨doc', hup'⟩)
  exact lt_irrefl d hlt

/-! ## The documents of an external id -/

/-- What the calls ask for: a put has its document replace those of its id, an
add joins them, a delete takes all. -/
def meaning [DecidableEq Id] (docs : Id → List Doc) (r : LogRecord Id Doc) : Id → List Doc :=
  Function.update docs r.external_id <|
    match r.upsert with
    | some (_, doc) => if r.as_chunk then docs r.external_id ++ [doc] else [doc]
    | none => []

/-- The document of a version, where it is one of `id`. -/
def version_of [DecidableEq Id] (id : Id) (version : Option (Id × Doc)) : Option Doc :=
  version.bind fun document => if document.1 = id then some document.2 else none

/-- The documents that an external id has, of those below a number. -/
def documents_of [DecidableEq Id] (contents : Contents Id Doc) (bound : ℕ) (id : Id) : List Doc :=
  (List.range bound).filterMap fun d => version_of id (contents d)

variable [DecidableEq Id]

theorem version_of_eq_some {version : Option (Id × Doc)} :
    version_of id version = some doc ↔ version = some (id, doc) := by
  rcases version with _ | ⟨id', doc'⟩
  · simp [version_of]
  · by_cases h : id' = id <;> simp [version_of]

theorem filterMap_range_add {f g : ℕ → Option Doc} {bound : ℕ} (hd : d < bound)
    (hadd : g d = some doc) (hsame : ∀ k, k ≠ d → g k = f k) (hlast : ∀ k, d ≤ k → f k = none) :
    (List.range bound).filterMap g = (List.range bound).filterMap f ++ [doc] := by
  induction bound with
  | zero => omega
  | succ bound ih =>
      rw [List.range_succ, List.filterMap_append, List.filterMap_append]
      rcases Nat.lt_succ_iff_lt_or_eq.1 hd with hlt | rfl
      · rw [ih hlt]
        simp [hsame bound (by omega), hlast bound (by omega)]
      · have hbelow : (List.range d).filterMap g = (List.range d).filterMap f :=
          List.filterMap_congr fun k hk => hsame k (List.mem_range.1 hk).ne
        simp [hbelow, hadd, hlast d le_rfl]

/-- What a record leaves of another id. -/
theorem version_of_concat_ne (h : Linear (l ++ [r])) (hid : r.external_id ≠ id) :
    version_of id (target (l ++ [r]) d) = version_of id (target l d) := by
  by_cases ht : r.Touches d
  · have hold : version_of id (target l d) = none := by
      refine Option.eq_none_iff_forall_ne_some.2 fun doc hdoc => hid ?_
      obtain ⟨r', hr', hup, rfl⟩ := exists_of_target (version_of_eq_some.1 hdoc)
      exact h.external_id_eq (by simp) (List.mem_append_left _ hr') ht (Or.inr ⟨doc, hup⟩)
    rw [hold]
    refine Option.eq_none_iff_forall_ne_some.2 fun doc hdoc => hid ?_
    obtain ⟨r', hr', hup, rfl⟩ := exists_of_target (version_of_eq_some.1 hdoc)
    exact h.external_id_eq (by simp) hr' ht (Or.inr ⟨doc, hup⟩)
  · rw [target_append (List.forall_mem_singleton.2 ht)]

/-- **A linear log means what was asked for**, record after record. -/
theorem documents_of_target (h : Linear l) {bound : ℕ}
    (hbound : ∀ r ∈ l, ∀ d, r.Touches d → d < bound) (id : Id) :
    documents_of (target l) bound id = l.foldl meaning (fun _ => []) id := by
  induction l using List.reverseRecOn generalizing id with
  | nil => simp [documents_of, target, patched, version_of]
  | append_singleton l r ih =>
      rw [List.forall_mem_append, List.forall_mem_singleton] at hbound
      have hr : r ∈ l ++ [r] := List.mem_append_right _ List.mem_cons_self
      have hold := ih h.left hbound.1
      rw [List.foldl_append, List.foldl_cons, List.foldl_nil, meaning]
      rcases ne_or_eq r.external_id id with hid | rfl
      · rw [Function.update_of_ne hid.symm, ← hold]
        exact List.filterMap_congr fun d _ => version_of_concat_ne h hid
      have hexact := h.exact l r [] rfl
      -- a version that the record does not touch, of an id it replaces
      have hkeep : ∀ k, ¬ r.Touches k → r.as_chunk = false →
          version_of r.external_id (target (l ++ [r]) k) = none := by
        intro k hk hchunk
        refine Option.eq_none_iff_forall_ne_some.2 fun doc hdoc => hk (Or.inl ?_)
        rw [target_append (List.forall_mem_singleton.2 hk)] at hdoc
        exact (hexact k).2 ⟨hchunk, doc, version_of_eq_some.1 hdoc⟩
      rw [Function.update_self, ← hold]
      rcases hup : r.upsert with _ | ⟨d, doc⟩
      · have hchunk : r.as_chunk = false := by
          have := h.chunk r hr
          rw [hup] at this
          simpa using this
        refine List.filterMap_eq_nil_iff.2 fun k _ => ?_
        by_cases hk : k ∈ r.doc_ids
        · rw [target_concat_of_touches (LogRecord.value_delete hk (by simp [hup]))]
          rfl
        · exact hkeep k (by simp [LogRecord.Touches, hk, hup]) hchunk
      · have hadd : version_of r.external_id (target (l ++ [r]) d) = some doc := by
          rw [target_concat_of_touches (LogRecord.value_upsert hup)]
          simp [version_of]
        have hd := hbound.2 d (Or.inr ⟨doc, hup⟩)
        rcases hchunk : r.as_chunk with _ | _
        · have hnil : ∀ k, k ≠ d → version_of r.external_id (target (l ++ [r]) k) = none := by
            intro k hk
            by_cases hdel : k ∈ r.doc_ids
            · rw [target_concat_of_touches (LogRecord.value_delete hdel (by simp [hup, hk.symm]))]
              rfl
            · exact hkeep k (by simp [LogRecord.Touches, hdel, hup, hk.symm]) hchunk
          have := filterMap_range_add hd hadd (f := fun _ => none) hnil fun _ _ => rfl
          simpa [documents_of] using this
        · refine filterMap_range_add hd hadd (fun k hk => ?_) fun k hk => ?_
          · have hdel : k ∉ r.doc_ids := fun hdel => by simpa [hchunk] using (hexact k).1 hdel
            rw [target_append (by simp [LogRecord.Touches, hdel, hup, hk.symm])]
          · refine Option.eq_none_iff_forall_ne_some.2 fun doc' hdoc => ?_
            obtain ⟨r', hr', hup', -⟩ := exists_of_target (version_of_eq_some.1 hdoc)
            have hlt := (List.pairwise_append.1 h.numbered).2.2 r' hr' r List.mem_cons_self d doc
              hup k (Or.inr ⟨doc', hup'⟩)
            omega

end Engine

end Laurus
