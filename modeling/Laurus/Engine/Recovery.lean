import Laurus.Engine.Helpers.CommitReplay

/-!
# Recovery

Whatever calls, ladders, failures and crashes came before, in whatever order
their steps did, an engine that is open and idle holds what the log says: every
store holds the versions that its records leave, and an external id has the
documents that were asked for, put after put. A crash may take from the log what
no store had persisted, and where every append is synced that is nothing a call
ever returned for.
-/

namespace Laurus

namespace Engine

variable {Id Doc : Type} {n : ℕ} [DecidableEq Id] {e : Engine Id Doc n} {q : Parts Id Doc n}
  {id : Id} {m : Mutation Id Doc n} {r : LogRecord Id Doc} {rest : List (Work Id Doc n)}

omit [DecidableEq Id] in
theorem inv_close (hs : q.Stored) (hwhole : q.persisted = q.wal.length) : (close q).Inv where
  toStored := hs
  live hopen := absurd hopen (by simp [close])
  closed _ := ⟨hwhole, rfl, rfl, rfl⟩

omit [DecidableEq Id] in
theorem inv_open (hopen : e.is_open = true) (hs : e.Stored) (hl : e.Live) : e.Inv where
  toStored := hs
  live _ := hl
  closed hclosed := by
    rw [hopen] at hclosed
    cases hclosed

/-! ## Calls -/

theorem mem_others : m ∈ e.others id ↔ m ∈ e.mutations ∧ m.external_id ≠ id := by
  simp [others]

theorem mutation_eq_some (h : e.mutation id = some m) : m ∈ e.mutations ∧ m.external_id = id :=
  ⟨List.mem_of_find?_eq_some h, by simpa using List.find?_some h⟩

theorem looking_eq_some (h : e.looking id = some m) :
    m ∈ e.mutations ∧ m.external_id = id ∧ m.applying = none := by
  obtain ⟨hm, hnone⟩ := Option.filter_eq_some_iff.1 h
  obtain ⟨hmem, hid⟩ := mutation_eq_some hm
  exact ⟨hmem, hid, by simpa using hnone⟩

theorem applying_eq_some (h : e.applying id = some (m, r, rest)) :
    m ∈ e.mutations ∧ m.external_id = id ∧ m.applying = some (r, rest) := by
  obtain ⟨m', hm, hmap⟩ := Option.bind_eq_some_iff.1 h
  obtain ⟨⟨r', rest'⟩, happ, heq⟩ := Option.map_eq_some_iff.1 hmap
  cases heq
  obtain ⟨hmem, hid⟩ := mutation_eq_some hm
  exact ⟨hmem, hid, happ⟩

omit [DecidableEq Id] in
/-- Two calls of one external id are one. -/
theorem Live.eq_of_id (h : e.Live) {m' : Mutation Id Doc n} (hm : m ∈ e.mutations)
    (hm' : m' ∈ e.mutations) (hid : m.external_id = m'.external_id) : m = m' :=
  List.inj_on_of_nodup_map h.ids hm hm' hid

/-- **A step about one external id**: the call that it has afterwards, if any,
and those of the others. -/
theorem Live.step (h : e.Live) (hk : Parts.Keeps e.toParts q (· ≠ id)) (stop : Bool)
    (ms : List (Mutation Id Doc n)) (hlen : ms.length ≤ 1) (hid : ∀ m ∈ ms, m.external_id = id)
    (hlooks : ∀ m ∈ ms, m.applying = none → q.Looks m)
    (happlies : ∀ m ∈ ms, ∀ r rest, m.applying = some (r, rest) → q.Applies m r rest)
    (hstop : stop = false → ∀ r ∈ q.wal, ¬ Finished q.applied r.seq →
      (∃ m ∈ ms, ∃ rest, m.applying = some (r, rest)) ∨
        ∃ m ∈ e.others id, ∃ rest, m.applying = some (r, rest)) :
    Live { e with toParts := q, write_stop := stop, mutations := ms ++ e.others id } where
  toReady := hk.ready
  ids := by
    have hothers : ((e.others id).map Mutation.external_id).Nodup :=
      h.ids.sublist (List.filter_sublist.map _)
    have hms : (ms.map Mutation.external_id).Nodup := by
      rcases ms with _ | ⟨m, _ | ⟨m', ms⟩⟩
      · exact List.nodup_nil
      · exact List.nodup_singleton _
      · simp at hlen
    rw [List.map_append]
    refine List.nodup_append.2 ⟨hms, hothers, fun a ha b hb heq => ?_⟩
    obtain ⟨m, hm, rfl⟩ := List.mem_map.1 ha
    obtain ⟨m', hm', rfl⟩ := List.mem_map.1 hb
    exact (mem_others.1 hm').2 (heq ▸ hid m hm)
  stop hs r hr hnot := by
    rcases hstop hs r hr hnot with ⟨m, hm, happ⟩ | ⟨m, hm, happ⟩
    · exact ⟨m, List.mem_append_left _ hm, happ⟩
    · exact ⟨m, List.mem_append_right _ hm, happ⟩
  looks m hm hnone := by
    rcases List.mem_append.1 hm with hm | hm
    · exact hlooks m hm hnone
    · obtain ⟨hmem, hne⟩ := mem_others.1 hm
      exact hk.looks m hne (h.looks m hmem hnone)
  applies m hm r rest happ := by
    rcases List.mem_append.1 hm with hm | hm
    · exact happlies m hm r rest happ
    · obtain ⟨hmem, hne⟩ := mem_others.1 hm
      exact hk.applies m r rest hne (h.applies m hmem r rest happ)
  ladders l hl := hk.climbs l (h.ladders l hl)

/-- A step about one external id that ends its call and stops writes. -/
theorem Live.step_stop (h : e.Live) (hk : Parts.Keeps e.toParts q (· ≠ id)) :
    Live { e with toParts := q, write_stop := true, mutations := e.others id } :=
  h.step hk true [] (Nat.zero_le _) (fun m hm => absurd hm List.not_mem_nil)
    (fun m hm => absurd hm List.not_mem_nil) (fun m hm => absurd hm List.not_mem_nil)
    fun hs => absurd hs (by simp)

/-- The call of a record under way, of an id that has another or none. -/
theorem Live.other_of_stop (h : e.Live) (hs : e.write_stop = false) (hr : r ∈ e.wal)
    (hnot : ¬ Finished e.applied r.seq)
    (hid : ∀ m ∈ e.mutations, m.external_id = id → ∀ rest, m.applying ≠ some (r, rest)) :
    ∃ m ∈ e.others id, ∃ rest, m.applying = some (r, rest) := by
  obtain ⟨m, hm, rest, happ⟩ := h.stop hs r hr hnot
  exact ⟨m, mem_others.2 ⟨hm, fun heq => hid m hm heq rest happ⟩, rest, happ⟩

/-- **A call starts**: what it finds are the versions that the log says. -/
theorem Live.begin_mutation (hs : e.Stored) (h : e.Live) (hopen : e.is_open = true)
    (hstop : e.write_stop = false) (hnone : e.mutation id = none) (request : Option (Doc × Bool)) :
    (e.begin_mutation id request).Inv := by
  have hfree : ∀ m ∈ e.mutations, m.external_id ≠ id := by
    simpa [mutation] using hnone
  have hothers : e.others id = e.mutations := List.filter_eq_self.2 (by simpa using hfree)
  have hfin : ∀ r ∈ e.wal, r.external_id = id → Finished e.applied r.seq := by
    intro r hr hid
    by_contra hnot
    obtain ⟨m, hm, rest, happ⟩ := h.stop hstop r hr hnot
    exact hfree m hm ((h.applies m hm r rest happ).external_id.symm.trans hid)
  -- no record under way touches a version of this id
  have hmem : ∀ d doc, ((e.store .lexical).mem d = some (id, doc) ∨
      target e.history d = some (id, doc)) →
        (e.store .lexical).mem d = target e.history d := by
    intro d doc hd
    have hown : ∃ r ∈ e.history, r.upsert = some (d, doc) ∧ r.external_id = id := by
      rcases hd with hd | hd
      · exact h.owned .lexical d id doc hd
      · exact exists_of_target hd
    obtain ⟨r, hr, hup, hid⟩ := hown
    have hall := h.mem e.wal.length hs.appended_le .lexical d (by
      rw [List.take_length]
      intro r' hr' hnot ht
      refine hnot (hfin r' hr' ?_)
      rw [← hid]
      exact hs.linear.external_id_eq (List.mem_append_right _ hr') hr ht (Or.inr ⟨doc, hup⟩))
    rwa [Parts.kept_of_le le_rfl] at hall
  have hfind : ∀ d, d ∈ e.find_doc_ids id ↔ ∃ doc, target e.history d = some (id, doc) := by
    intro d
    rw [Parts.find_doc_ids, List.mem_filter, List.mem_range]
    constructor
    · rintro ⟨-, hany⟩
      rcases hd : (e.store .lexical).mem d with _ | ⟨id', doc⟩
      · simp [hd] at hany
      · have hid : id' = id := by simpa [hd] using hany
        rw [hid] at hd
        exact ⟨doc, (hmem d doc (Or.inl hd)).symm.trans hd⟩
    · rintro ⟨doc, hd⟩
      obtain ⟨r, hr, hup, -⟩ := exists_of_target hd
      refine ⟨h.doc_lt r hr d (Or.inr ⟨doc, hup⟩), ?_⟩
      rw [hmem d doc (Or.inr hd), hd]
      simp
  have hprevious : ∀ d, d ∈ (if request.any Prod.snd then [] else e.find_doc_ids id) ↔
      request.any Prod.snd = false ∧ ∃ doc, target e.history d = some (id, doc) := by
    intro d
    rcases hchunk : request.any Prod.snd with _ | _
    · simp [hfind d]
    · simp
  unfold Engine.begin_mutation
  dsimp only
  generalize (if request.any Prod.snd then [] else e.find_doc_ids id) = previous at hprevious ⊢
  split
  · exact inv_open hopen hs h
  · have hk : Parts.Keeps e.toParts e.toParts (· ≠ id) := Parts.Keeps.refl hs h.toReady
    have := h.step hk e.write_stop [⟨id, request, previous, none⟩] le_rfl (by simp)
      (List.forall_mem_singleton.2 fun _ => ⟨hfin, hprevious⟩) (by simp) fun hs' r hr hnot =>
        Or.inr (h.other_of_stop hs' hr hnot fun m hm hid => absurd hid (hfree m hm))
    rw [hothers] at this
    exact inv_open hopen hs this

/-- A call gives up before its append. -/
theorem Live.cancel (hs : e.Stored) (h : e.Live) (hopen : e.is_open = true)
    (hm : e.looking id = some m) : Inv { e with mutations := e.others id } := by
  obtain ⟨hmem, rfl, hnone⟩ := looking_eq_some hm
  refine inv_open hopen hs (h.step (Parts.Keeps.refl hs h.toReady) e.write_stop [] (Nat.zero_le _)
    (by simp) (by simp) (by simp) fun hs' r hr hnot => Or.inr (h.other_of_stop hs' hr hnot ?_))
  intro m' hm' hid rest happ
  rw [h.eq_of_id hm' hmem hid, hnone] at happ
  cases happ

/-- **An append**, however it ends. -/
theorem Live.append (hs : e.Stored) (h : e.Live) (hopen : e.is_open = true)
    (hm : e.looking id = some m) (outcome : AppendEnd) : (e.append m outcome).Inv := by
  obtain ⟨hmem, rfl, hnone⟩ := looking_eq_some hm
  have hlooks := h.looks m hmem hnone
  unfold Engine.append
  split
  · exact inv_open hopen hs (h.step_stop (Parts.Keeps.refl hs h.toReady))
  split
  · rename_i sync
    have hk : Parts.Keeps e.toParts (e.toParts.append m sync) (· ≠ m.external_id) :=
      Parts.Keeps.grow hs h.toReady hlooks (hs.appended_le.trans (by simp)) (by simp)
    refine inv_open hopen hk.stored (h.step hk e.write_stop [_] le_rfl (by simp) (by simp) ?_ ?_)
    · refine List.forall_mem_singleton.2 fun r rest happ => ?_
      cases happ
      exact Parts.Applies.append h.toReady sync
    · intro hs' r hr hnot
      rcases List.mem_append.1 hr with hr | hr
      · exact Or.inr (h.other_of_stop hs' hr hnot fun m' hm' hid rest happ => by
          rw [h.eq_of_id hm' hmem hid, hnone] at happ
          cases happ)
      · rw [List.mem_singleton.1 hr]
        exact Or.inl ⟨_, List.mem_cons_self, _, rfl⟩
  · rename_i whole
    have hk : Parts.Keeps e.toParts (e.append_fails m whole) (· ≠ m.external_id) := by
      rcases whole with _ | _
      · exact Parts.Keeps.number hs h.toReady true
      · exact Parts.Keeps.grow hs h.toReady hlooks le_rfl (hs.appended_le.trans (Nat.le_succ _))
    exact inv_open hopen hk.stored (h.step_stop hk)

theorem advance_next_seq : (e.advance m r rest).next_seq = e.next_seq := by
  rcases rest with _ | ⟨_ | _ | _, rest⟩ <;> rfl

/-- **A mutation goes on or finishes.** -/
theorem Live.advance (hs : e.Stored) (h : e.Live) (hopen : e.is_open = true)
    (happ : e.applying id = some (m, r, rest)) (hbound : e.next_seq < 2 ^ 64) :
    (e.advance m r rest).Inv := by
  obtain ⟨hmem, rfl, hr⟩ := applying_eq_some happ
  have happlies := h.applies m hmem r rest hr
  have hid := happlies.external_id
  rcases rest with _ | ⟨w, rest⟩
  · have hk := Parts.Keeps.finish hs h.toReady happlies (by omega)
    rw [hid] at hk
    refine inv_open hopen hk.stored
      (h.step hk e.write_stop [] (Nat.zero_le _) (by simp) (by simp) (by simp) ?_)
    intro hs' r' hr' hnot
    obtain ⟨-, hfin⟩ := h.tracked.finish (by omega) (h.seq_lt r happlies.mem_wal)
      (hs.pos r happlies.mem_wal)
    have hfin' := mt (hfin r'.seq).2 hnot
    refine Or.inr (h.other_of_stop hs' hr' (fun h' => hfin' (Or.inl h')) ?_)
    intro m' hm' hid' rest' happ'
    rw [h.eq_of_id hm' hmem hid', hr] at happ'
    cases happ'
    exact hfin' (Or.inr rfl)
  · have hk := Parts.Keeps.work hs h.toReady happlies.toUnderWay
      (happlies.suffix.subset List.mem_cons_self)
    rw [hid] at hk
    refine inv_open hopen hk.stored (h.step hk e.write_stop [_] le_rfl (by simp) (by simp) ?_ ?_)
    · refine List.forall_mem_singleton.2 fun r' rest' happ' => ?_
      cases happ'
      exact happlies.next hs
    · intro hs' r' hr' hnot
      have hwal : (e.work w).wal = e.wal ∧ (e.work w).applied = e.applied ∧ _ := Parts.work_wal
      rw [hwal.1] at hr'
      rw [hwal.2.1] at hnot
      by_cases heq : r' = r
      · exact Or.inl ⟨_, List.mem_cons_self, rest, by rw [heq]⟩
      · refine Or.inr (h.other_of_stop hs' hr' hnot fun m' hm' hid' rest' happ' => ?_)
        rw [h.eq_of_id hm' hmem hid', hr] at happ'
        cases happ'
        exact heq rfl

/-! ## Ladders -/

omit [DecidableEq Id] in
/-- A step of a ladder, or of what storage does by itself. -/
theorem Live.ladder_step (h : e.Live) (hk : Parts.Keeps e.toParts q fun _ => True)
    (hway : ∀ r ∈ q.wal, ¬ Finished q.applied r.seq → r ∈ e.wal ∧ ¬ Finished e.applied r.seq)
    {ladders : List (Ladder n)} (hl : ∀ l ∈ ladders, q.Climbs l) :
    Live { e with toParts := q, ladders } where
  toReady := hk.ready
  ids := h.ids
  stop hs r hr hnot := h.stop hs r (hway r hr hnot).1 (hway r hr hnot).2
  looks m hm hnone := hk.looks m trivial (h.looks m hm hnone)
  applies m hm r rest happ := hk.applies m r rest trivial (h.applies m hm r rest happ)
  ladders := hl

omit [DecidableEq Id] in
/-- **A ladder starts** at the watermark. -/
theorem climbs_all (h : e.Ready) : e.Climbs ⟨e.applied.watermark, Ladder.all n⟩ where
  behind := ⟨h.tracked.lt (Or.inl le_rfl), fun r _ hle => Or.inl hle⟩
  last _ := ⟨.flush_wal :: .commit_through .lexical ::
    ((List.finRange n).map fun field => .commit_through (.vector field)) ++ [.commit_documents],
    by simp [Ladder.all], by simp⟩
  stores _ part hpart := by
    refine absurd ?_ hpart
    rcases part with _ | field <;> simp [Ladder.all]
  docs _ hdocs := absurd (by simp [Ladder.all]) hdocs

omit [DecidableEq Id] in
/-- **A rung of a ladder** is climbed. -/
theorem Live.climb (hs : e.Stored) (h : e.Live) {applied_before : ℕ} {rung : Rung n}
    {rungs : List (Rung n)} (hl : e.Climbs ⟨applied_before, rung :: rungs⟩) (cached : Bool) :
    Parts.Keeps e.toParts (e.toParts.climb applied_before cached rung) (fun _ => True) ∧
      (e.toParts.climb applied_before cached rung).Climbs ⟨applied_before, rungs⟩ ∧
      (∀ r ∈ (e.toParts.climb applied_before cached rung).wal, r ∈ e.wal) ∧
        (e.toParts.climb applied_before cached rung).applied = e.applied := by
  have hlast : .truncate ∈ rungs → ∃ rungs', rungs = rungs' ++ [.truncate] ∧ .truncate ∉ rungs' := by
    intro hmem
    obtain ⟨pre, heq, hnot⟩ := hl.last (List.mem_cons_of_mem _ hmem)
    rcases pre with _ | ⟨rung', pre⟩
    · rw [List.nil_append, List.cons.injEq] at heq
      rw [heq.2] at hmem
      cases hmem
    · rw [List.cons_append, List.cons.injEq] at heq
      exact ⟨pre, heq.2, fun h => hnot (List.mem_cons_of_mem _ h)⟩
  have hrest : ∀ {q : Parts Id Doc n}, q.Climbs ⟨applied_before, rung :: rungs⟩ →
      (∀ part, rung = .commit_through part → q.Covers part applied_before) →
      (rung = .commit_documents → ∀ r ∈ q.wal, r.seq ≤ applied_before → ∀ d doc,
        r.upsert = some (d, doc) → (d, doc) ∈ q.committed) →
      q.Climbs ⟨applied_before, rungs⟩ := by
    intro q hq hpart hdocs
    refine ⟨hq.behind, hlast, fun hmem part hnot => ?_, fun hmem hnot => ?_⟩
    · by_cases heq : rung = .commit_through part
      · exact hpart part heq
      · refine hq.stores (List.mem_cons_of_mem _ hmem) part ?_
        rw [List.mem_cons, not_or]
        exact ⟨fun h => heq h.symm, hnot⟩
    · by_cases heq : rung = .commit_documents
      · exact hdocs heq
      · refine hq.docs (List.mem_cons_of_mem _ hmem) ?_
        rw [List.mem_cons, not_or]
        exact ⟨fun h => heq h.symm, hnot⟩
  rcases rung with _ | part | _ | _
  · have hk : Parts.Keeps e.toParts e.toParts.flush_wal fun _ => True :=
      Parts.Keeps.flush_wal hs h.toReady
    exact ⟨hk, hrest (hk.climbs _ hl) (fun part heq => by cases heq) (fun heq => by cases heq),
      fun r hr => hr, rfl⟩
  · obtain ⟨hk, hcovers⟩ :=
      @Parts.Keeps.commit_through _ _ _ _ _ part (fun _ => True) hs h.toReady hl.behind cached
    refine ⟨hk, hrest (hk.climbs _ hl) (fun part' heq => ?_) (fun heq => by cases heq),
      fun r hr => hr, rfl⟩
    cases heq
    exact hcovers
  · have hk : Parts.Keeps e.toParts e.toParts.commit_documents fun _ => True :=
      Parts.Keeps.commit_documents hs h.toReady
    refine ⟨hk, hrest (hk.climbs _ hl) (fun part heq => by cases heq) (fun _ r hr hle d doc hup => ?_),
      fun r hr => hr, rfl⟩
    exact h.stored r hr (hl.behind.2 r hr hle) d doc hup
  · -- all the other steps of the ladder have come before
    obtain ⟨pre, heq, hnot⟩ := hl.last List.mem_cons_self
    have hpre : pre = [] := by
      rcases pre with _ | ⟨rung', pre⟩
      · rfl
      · rw [List.cons_append, List.cons.injEq] at heq
        exact absurd (heq.1 ▸ List.mem_cons_self) hnot
    rw [hpre, List.nil_append, List.cons.injEq] at heq
    have hnil : rungs = [] := heq.2
    subst hnil
    have hk : Parts.Keeps e.toParts (e.toParts.truncate_retaining_after applied_before)
        fun _ => True := Parts.Keeps.truncate hs h.toReady hl.behind
      (fun part => hl.stores List.mem_cons_self part (by simp)) (hl.docs List.mem_cons_self (by simp))
    refine ⟨hk, hrest (hk.climbs _ hl) (fun part heq => by cases heq) (fun heq => by cases heq),
      fun r hr => List.mem_of_mem_filter hr, rfl⟩

/-! ## Runs -/

instance : ∀ action : Action Id Doc n, Decidable (e.Enabled action)
  | .begin_mutation _ _ => inferInstanceAs (Decidable (_ ∧ _ ∧ _))
  | .cancel _ | .append _ _ | .advance _ | .fail _ _ _ | .climb _ _ | .fall _ | .persist _ _ =>
    inferInstanceAs (Decidable (_ = _))
  | .commit => inferInstanceAs (Decidable (_ ∧ _))
  | .drop _ => inferInstanceAs (Decidable (_ ∧ _ ∧ _))
  | .crash _ => inferInstanceAs (Decidable (_ ≤ _))
  | .recover | .recover_fails _ _ => inferInstanceAs (Decidable (_ = _))

/-- A crash takes nothing from the log that a store has persisted. -/
def Spares (e : Engine Id Doc n) : Action Id Doc n → Prop
  | .crash keep => e.persisted ≤ keep
  | _ => True

/-- What the run of a system may do: calls come when they can, and numbers
stay within 64 bits. -/
def Allowed (e : Engine Id Doc n) (action : Action Id Doc n) : Prop :=
  e.Enabled action ∧ (e.act action).next_seq < 2 ^ 64 ∧ e.Spares action

instance : ∀ action : Action Id Doc n, Decidable (e.Spares action)
  | .crash _ => inferInstanceAs (Decidable (_ ≤ _))
  | .begin_mutation _ _ | .cancel _ | .append _ _ | .advance _ | .fail _ _ _ | .commit
  | .climb _ _ | .fall _ | .persist _ _ | .drop _ | .recover | .recover_fails _ _ => isTrue trivial

instance (action : Action Id Doc n) : Decidable (Allowed e action) :=
  inferInstanceAs (Decidable (_ ∧ _ ∧ _))

omit [DecidableEq Id] in
theorem inv_new : (new Id Doc n).Inv := by
  refine inv_close ⟨Linear.nil, List.Pairwise.nil, ?_, le_rfl, le_rfl, fun part k _ d _ => ?_, ?_,
    ?_⟩ rfl
  · exact fun r hr => absurd hr List.not_mem_nil
  · simp [Parts.kept, target, patched_apply, settled]
  · exact fun r hr => absurd hr List.not_mem_nil
  · exact fun d doc hd => absurd hd List.not_mem_nil

/-- A piece of work fails. -/
theorem Live.fail (hs : e.Stored) (h : e.Live) (hopen : e.is_open = true)
    {w : Work Id Doc n} (happ : e.applying id = some (m, r, w :: rest)) (done rollback : Bool) :
    Inv { e with
      toParts := e.toParts.fail w done rollback
      write_stop := true
      mutations := e.others id } := by
  obtain ⟨hmem, rfl, hr⟩ := applying_eq_some happ
  have happlies := h.applies m hmem r (w :: rest) hr
  have hk := Parts.Keeps.fail hs h.toReady happlies.toUnderWay
    (happlies.suffix.subset List.mem_cons_self) done rollback
  rw [happlies.external_id] at hk
  exact inv_open hopen hk.stored (h.step_stop hk)

omit [DecidableEq Id] in
/-- The lexical store commits as the engine is dropped. -/
theorem Live.drop (hs : e.Stored) (h : e.Live) (cached : Bool) :
    (close ((e.toParts.commit_through .lexical e.applied.watermark cached).crash
      e.wal.length)).Inv := by
  have hbehind : e.Behind e.applied.watermark := (climbs_all h.toReady).behind
  have hk := (@Parts.Keeps.commit_through _ _ _ _ _ .lexical (fun _ => True) hs h.toReady hbehind
    cached).1
  exact inv_close (hk.stored.crash hs.appended_le) rfl

omit [DecidableEq Id] in
/-- **`recover` opens the engine.** -/
theorem Inv.recover (h : e.Inv) (hclosed : e.is_open = false)
    (hbound : e.toParts.recover.next_seq < 2 ^ 64) :
    Inv { e with toParts := e.toParts.recover, is_open := true } := by
  obtain ⟨hwhole, hms, hls, -⟩ := h.closed hclosed
  obtain ⟨hs, hready, hfin⟩ := h.toStored.recover hwhole hbound
  refine inv_open rfl hs ⟨hready, ?_, fun _ r hr hnot => absurd (hfin r hr) hnot, ?_, ?_, ?_⟩
  · simp [hms]
  · simp [hms]
  · simp [hms]
  · simp [hls]

variable {action : Action Id Doc n}

/-- **Every action keeps the invariant.** -/
theorem Inv.act (h : e.Inv) (ha : Allowed e action) :
    (e.act action).Inv := by
  obtain ⟨henabled, hbound, hcrash⟩ := ha
  have hs := h.toStored
  rcases action with ⟨id, request⟩ | id | ⟨id, outcome⟩ | id | ⟨id, done, rollback⟩ | _ |
    ⟨i, cached⟩ | i | ⟨part, doc_ids⟩ | cached | keep | _ | ⟨count, doc_ids⟩
  · obtain ⟨hopen, hstop, hnone⟩ := henabled
    exact (h.live hopen).begin_mutation hs hopen hstop hnone request
  · dsimp only [Engine.act]
    split
    · rename_i hm
      exact (h.live henabled).cancel hs henabled hm
    · exact h
  · dsimp only [Engine.act]
    split
    · rename_i hm
      exact (h.live henabled).append hs henabled hm outcome
    · exact h
  · dsimp only [Engine.act] at hbound ⊢
    rcases happ : e.applying id with _ | ⟨m, r, rest⟩
    · exact h
    · rw [happ] at hbound
      have hsame : (e.advance m r rest).next_seq = e.next_seq := advance_next_seq
      exact (h.live henabled).advance hs henabled happ (hsame ▸ hbound)
  · dsimp only [Engine.act]
    split
    · rename_i happ
      exact (h.live henabled).fail hs henabled happ done rollback
    · exact h
  · obtain ⟨hopen, -⟩ := henabled
    have hl := h.live hopen
    have hstart := List.forall_mem_cons.2 ⟨climbs_all hl.toReady, hl.ladders⟩
    exact inv_open hopen hs
      (hl.ladder_step (Parts.Keeps.refl hs hl.toReady) (fun r hr hnot => ⟨hr, hnot⟩) hstart)
  · have hl := h.live henabled
    dsimp only [Engine.act]
    split
    · rename_i applied_before rung rungs hi
      have hclimbs := hl.ladders _ (List.mem_of_getElem? hi)
      obtain ⟨hk, hnext, hsub, happlied⟩ := Live.climb hs hl hclimbs cached
      refine inv_open henabled hk.stored (hl.ladder_step hk (fun r hr hnot => ⟨hsub r hr, ?_⟩) ?_)
      · rwa [happlied] at hnot
      · intro l hmem
        rcases List.mem_or_eq_of_mem_set hmem with hmem | rfl
        · exact hk.climbs l (hl.ladders l hmem)
        · exact hnext
    · exact h
  · have hl := h.live henabled
    dsimp only [Engine.act]
    split
    · rename_i applied_before rungs hi
      have hclimbs := hl.ladders _ (List.mem_of_getElem? hi)
      refine inv_open henabled hs (hl.ladder_step (Parts.Keeps.refl hs hl.toReady)
        (fun r hr hnot => ⟨hr, hnot⟩) fun l hmem => ?_)
      rcases List.mem_or_eq_of_mem_set hmem with hmem | rfl
      · exact hl.ladders l hmem
      · exact ⟨hclimbs.behind, by simp, by simp, by simp⟩
    · exact h
  · have hl := h.live henabled
    have hk : Parts.Keeps e.toParts (e.toParts.persist part doc_ids) fun _ => True :=
      Parts.Keeps.persist hs hl.toReady doc_ids
    exact inv_open henabled hk.stored
      (hl.ladder_step hk (fun r hr hnot => ⟨hr, hnot⟩) fun l hmem => hk.climbs l (hl.ladders l hmem))
  · exact (h.live henabled.1).drop hs cached
  · exact inv_close (hs.crash hcrash) rfl
  · exact h.recover henabled hbound
  · obtain ⟨hwhole, hms, hls, hstop⟩ := h.closed henabled
    have hclosed : e.is_open = false := henabled
    have hstill : (e.act (.recover_fails count doc_ids)).is_open ≠ true := by
      simp [Engine.act, hclosed]
    exact ⟨hs.recover_fails hwhole count doc_ids, fun hopen => absurd hopen hstill,
      fun _ => ⟨hwhole, hms, hls, hstop⟩⟩

/-! ## What an idle engine holds -/

omit [DecidableEq Id] in
theorem lookup_eq_some {docs : List (ℕ × Doc)} {d : ℕ} {doc : Doc} (h : (d, doc) ∈ docs)
    (honly : ∀ doc', (d, doc') ∈ docs → doc' = doc) : docs.lookup d = some doc := by
  induction docs with
  | nil => cases h
  | cons entry docs ih =>
      obtain ⟨d', doc'⟩ := entry
      by_cases hd : d = d'
      · subst hd
        rw [List.lookup_cons_self, honly doc' List.mem_cons_self]
      · have hmem : (d, doc) ∈ docs := by
          rcases List.mem_cons.1 h with heq | hmem
          · cases heq
            exact absurd rfl hd
          · exact hmem
        rw [List.lookup_cons, beq_eq_false_iff_ne.2 hd]
        exact ih hmem fun doc'' hdoc => honly doc'' (List.mem_cons_of_mem _ hdoc)

omit [DecidableEq Id] in
/-- The document store holds what records added. -/
theorem exists_record (hs : q.Stored) (hr : q.Ready) {d : ℕ} {doc : Doc}
    (hdoc : (d, doc) ∈ q.pending ++ q.committed) : ∃ r ∈ q.history, r.upsert = some (d, doc) := by
  rcases List.mem_append.1 hdoc with hmem | hmem
  · obtain ⟨r, hr, hup⟩ := hr.pending d doc hmem
    exact ⟨r, Parts.mem_history_of_kept hr, hup⟩
  · obtain ⟨r, hr, hup⟩ := hs.committed d doc hmem
    exact ⟨r, Parts.mem_history_of_kept hr, hup⟩

/-- **An idle engine holds what its log says.** -/
theorem Inv.idle (h : e.Inv) (hopen : e.is_open = true) (hstop : e.write_stop = false)
    (hidle : e.mutations = []) : (∀ part, (e.store part).mem = target e.history) ∧
      ∀ id, e.get_documents id = e.history.foldl meaning (fun _ => []) id := by
  have hs := h.toStored
  have hl := h.live hopen
  have hfin : ∀ r ∈ e.wal, Finished e.applied r.seq := by
    intro r hr
    by_contra hnot
    obtain ⟨m, hm, -⟩ := hl.stop hstop r hr hnot
    rw [hidle] at hm
    cases hm
  have hmem : ∀ part, (e.store part).mem = target e.history := by
    intro part
    funext d
    have := hl.mem e.wal.length hs.appended_le part d fun r hr hnot =>
      absurd (hfin r (List.mem_of_mem_take hr)) hnot
    rwa [Parts.kept_of_le le_rfl] at this
  -- the document store has the document of every record, and only those
  have hdoc : ∀ r ∈ e.history, ∀ d doc, r.upsert = some (d, doc) →
      e.get_document d = some doc := by
    intro r hr d doc hup
    refine lookup_eq_some ?_ fun doc' hdoc' => ?_
    · rcases List.mem_append.1 hr with hr | hr
      · exact List.mem_append_right _ (hs.kept_docs r hr d doc hup)
      · exact hl.stored r hr (hfin r hr) d doc hup
    · obtain ⟨r', hr', hup'⟩ := exists_record hs hl.toReady hdoc'
      have heq := hs.linear.eq_of_upsert hr' hr hup' hup
      rw [heq, hup, Option.some.injEq, Prod.mk.injEq] at hup'
      exact hup'.2.symm
  refine ⟨hmem, fun id => ?_⟩
  rw [← documents_of_target hs.linear hl.doc_lt id, Parts.get_documents, Parts.find_doc_ids,
    List.filterMap_filter, documents_of]
  refine List.filterMap_congr fun d _ => ?_
  rw [hmem]
  rcases hd : target e.history d with _ | ⟨id', doc⟩
  · simp [version_of]
  · obtain ⟨r, hr, hup, -⟩ := exists_of_target hd
    rw [hdoc r hr d doc hup]
    simp [version_of]

/-- What every run keeps. -/
theorem inv_of_run {actions : List (Action Id Doc n)}
    (h : Run (Step.guarded Allowed fun e action e' => e.act action = e') (new Id Doc n) actions e) :
    e.Inv := by
  refine h.invariant Inv ?_ inv_new
  rintro e action _ hinv ⟨ha, rfl⟩
  exact hinv.act ha

/-- Two puts of one id: a ladder persists the first and truncates the log, and
a crash comes while the second is applied. -/
def two_puts : List (Action Bool ℕ 1) :=
  [.recover, .begin_mutation true (some (5, false)), .append true (.returns true), .advance true,
    .advance true, .advance true, .advance true, .commit, .climb 0 true, .climb 0 true,
    .climb 0 true, .climb 0 true, .climb 0 true, .begin_mutation true (some (7, false)),
    .append true (.returns true), .advance true, .advance true, .crash 1, .recover]

/-- **Numbers are fresh.** After any run of an open engine the next number is
above every record of the log and every checkpoint that a store persisted or a
ladder is about to, and the next internal id above every document that a record
touches or the document store holds; and no two records added a document under
one internal id. -/
theorem fresh_numbers {actions : List (Action Id Doc n)}
    (h : Run (Step.guarded Allowed fun e action e' => e.act action = e') (new Id Doc n) actions e) :
    (e.wal.Pairwise fun r r' => r.seq < r'.seq) ∧
      (∀ r ∈ e.history, ∀ r' ∈ e.history, ∀ d doc doc', r.upsert = some (d, doc) →
        r'.upsert = some (d, doc') → r = r') ∧
      (e.is_open = true → (∀ r ∈ e.wal, r.seq < e.next_seq) ∧
        (∀ part, (e.store part).checkpoint < e.next_seq) ∧
        (∀ ladder ∈ e.ladders, ladder.applied_before < e.next_seq) ∧
        (∀ r ∈ e.history, ∀ d, r.Touches d → d < e.next_doc_id) ∧
        ∀ d doc, (d, doc) ∈ e.pending ++ e.committed → d < e.next_doc_id) := by
  have hinv := inv_of_run h
  have hs := hinv.toStored
  refine ⟨hs.sorted, fun r hr r' hr' d doc doc' hup hup' =>
    hs.linear.eq_of_upsert hr hr' hup hup', fun hopen => ?_⟩
  have hl := hinv.live hopen
  refine ⟨hl.seq_lt, fun part => (hl.checkpoint part).1, fun ladder hladder =>
    (hl.ladders ladder hladder).behind.1, hl.doc_lt, fun d doc hdoc => ?_⟩
  obtain ⟨r, hr, hup⟩ := exists_record hs hl.toReady hdoc
  exact hl.doc_lt r hr d (Or.inr ⟨doc, hup⟩)

theorem two_puts_fresh : (two_puts.foldl act (new Bool ℕ 1)).next_seq = 3 ∧
    ∀ part, ((two_puts.foldl act (new Bool ℕ 1)).store part).checkpoint < 3 :=
  ⟨by decide +kernel, ((fresh_numbers (Run.of_admitted (by decide +kernel))).2.2 rfl).2.1⟩

/-! ## Synced logs -/

namespace Parts

/-- Every record that a call applies is synced, and so is all that a call
returned for. -/
structure Durable (p : Parts Id Doc n) : Prop where
  appended_le : p.appended ≤ p.synced
  acknowledged : ∀ r ∈ p.acknowledged, r ∈ p.kept p.synced

variable {p : Parts Id Doc n} {w : Work Id Doc n} {part : Part n} {seq : ℕ}

omit [DecidableEq Id] in
theorem Durable.work (h : p.Durable) : (p.work w).Durable := by
  rcases w with _ | _ | _ <;> exact ⟨h.appended_le, h.acknowledged⟩

omit [DecidableEq Id] in
theorem Durable.fail (h : p.Durable) (done rollback : Bool) : (p.fail w done rollback).Durable := by
  have hdone : Durable (if done = true then p.work w else p) := by
    split
    · exact h.work
    · exact h
  unfold Parts.fail
  generalize (if done = true then p.work w else p) = q at hdone ⊢
  split
  · exact hdone.work
  · exact hdone

omit [DecidableEq Id] in
theorem Durable.append (h : p.Durable) (m : Mutation Id Doc n) : (p.append m true).Durable where
  appended_le := le_rfl
  acknowledged r hr := by
    have hall : (p.append m true).kept (p.append m true).synced = (p.append m true).history :=
      kept_of_le le_rfl
    rw [hall]
    rcases List.mem_append.1 (mem_history_of_kept (h.acknowledged r hr)) with hmem | hmem
    · exact List.mem_append_left _ hmem
    · exact List.mem_append_right _ (List.mem_append_left _ hmem)

omit [DecidableEq Id] in
theorem Durable.append_fails (h : p.Durable) (m : Mutation Id Doc n) (whole : Bool) :
    (p.append_fails m whole).Durable := by
  refine ⟨h.appended_le, fun r hr => ?_⟩
  rcases whole with _ | _
  · exact h.acknowledged r hr
  · rcases List.mem_append.1 (h.acknowledged r hr) with hmem | hmem
    · exact List.mem_append_left _ hmem
    · refine List.mem_append_right _ ?_
      change r ∈ (p.wal ++ [p.record_of m]).take p.synced
      rw [List.take_append]
      exact List.mem_append_left _ hmem

omit [DecidableEq Id] in
theorem Durable.finish (h : p.Durable) (hway : p.UnderWay r) : (p.finish r).Durable where
  appended_le := h.appended_le
  acknowledged := List.forall_mem_append.2 ⟨h.acknowledged, List.forall_mem_singleton.2
    (List.mem_append_right _ (hway.mem_take h.appended_le))⟩

omit [DecidableEq Id] in
theorem Durable.truncate (hs : p.Stored) (h : p.Durable) :
    (p.truncate_retaining_after seq).Durable := by
  obtain ⟨j, htake, hdrop, hj⟩ := hs.filter_eq (w := seq)
  constructor
  · change p.appended - (p.wal.filter fun r => r.seq ≤ seq).length ≤
      (p.wal.filter fun r => seq < r.seq).length
    rw [htake, hdrop, List.length_take_of_le hj, List.length_drop]
    have := hs.appended_le
    omega
  · intro r hr
    have hall : (p.truncate_retaining_after seq).kept (p.truncate_retaining_after seq).synced =
        (p.truncate_retaining_after seq).history := kept_of_le le_rfl
    rw [hall]
    rcases List.mem_append.1 (mem_history_of_kept (h.acknowledged r hr)) with hmem | hmem
    · exact List.mem_append_left _ (List.mem_append_left _ hmem)
    · by_cases hle : r.seq ≤ seq
      · exact List.mem_append_left _ (List.mem_append_right _
          (List.mem_filter.2 ⟨hmem, by simpa using hle⟩))
      · exact List.mem_append_right _ (List.mem_filter.2 ⟨hmem, by simpa using hle⟩)

omit [DecidableEq Id] in
theorem Durable.climb (hs : p.Stored) (h : p.Durable) (cached : Bool) (rung : Rung n) :
    (p.climb seq cached rung).Durable := by
  rcases rung with _ | part | _ | _
  · refine ⟨hs.appended_le, fun r hr => ?_⟩
    have hall : p.flush_wal.kept p.flush_wal.synced = p.history := kept_of_le le_rfl
    exact hall ▸ mem_history_of_kept (h.acknowledged r hr)
  · exact ⟨h.appended_le, h.acknowledged⟩
  · exact ⟨h.appended_le, h.acknowledged⟩
  · exact h.truncate hs

omit [DecidableEq Id] in
theorem Durable.crash {k : ℕ} (h : p.Durable) (hk : p.synced ≤ k ∨ p.wal.length ≤ k) :
    (p.crash k).Durable where
  appended_le := le_rfl
  acknowledged r hr := by
    have hall : (p.crash k).kept (p.crash k).synced = p.kept k := kept_of_le le_rfl
    rw [hall]
    rcases hk with hk | hk
    · exact mem_kept_mono hk (h.acknowledged r hr)
    · rw [kept_of_le hk]
      exact mem_history_of_kept (h.acknowledged r hr)

end Parts

/-- An append that returns has synced the log. -/
def Action.Syncs : Action Id Doc n → Prop
  | .append _ (.returns sync) => sync = true
  | _ => True

instance : DecidablePred (Action.Syncs : Action Id Doc n → Prop)
  | .append _ (.returns _) => inferInstanceAs (Decidable (_ = _))
  | .append _ (.fails _) | .begin_mutation _ _ | .cancel _ | .advance _ | .fail _ _ _ | .commit
  | .climb _ _ | .fall _ | .persist _ _ | .drop _ | .crash _ | .recover | .recover_fails _ _ =>
    isTrue trivial

/-- What the run of a system may do whose log syncs every append. -/
def AllowedSynced (e : Engine Id Doc n) (action : Action Id Doc n) : Prop :=
  e.Enabled action ∧ (e.act action).next_seq < 2 ^ 64 ∧ action.Syncs

instance (action : Action Id Doc n) : Decidable (AllowedSynced e action) :=
  inferInstanceAs (Decidable (_ ∧ _ ∧ _))

/-- Then a crash takes nothing that a store has persisted. -/
theorem AllowedSynced.allowed (hs : e.Stored) (h : e.Durable)
    (ha : AllowedSynced e action) : Allowed e action := by
  refine ⟨ha.1, ha.2.1, ?_⟩
  rcases action with _ | _ | _ | _ | _ | _ | _ | _ | _ | _ | keep | _ | _
  case crash =>
    have hkeep : e.synced ≤ keep := ha.1
    have := hs.persisted_le
    have := h.appended_le
    change e.persisted ≤ keep
    omega
  all_goals trivial

/-- **Every action keeps what was synced.** -/
theorem Durable.act (h : e.Inv) (hd : e.Durable)
    (ha : AllowedSynced e action) : (e.act action).Durable := by
  obtain ⟨henabled, -, hsync⟩ := ha
  have hs := h.toStored
  rcases action with ⟨id, request⟩ | id | ⟨id, outcome⟩ | id | ⟨id, done, rollback⟩ | _ |
    ⟨i, cached⟩ | i | ⟨part, doc_ids⟩ | cached | keep | _ | ⟨count, doc_ids⟩ <;>
    dsimp only [Engine.act]
  · unfold Engine.begin_mutation
    dsimp only
    generalize (if request.any Prod.snd then [] else e.find_doc_ids id) = previous
    split <;> exact hd
  · split <;> exact hd
  · split
    · unfold Engine.append
      split
      · exact hd
      · rcases outcome with sync | whole
        · rcases sync with _ | _
          · cases hsync
          · exact hd.append _
        · exact hd.append_fails _ whole
    · exact hd
  · split
    · rename_i m r rest happ
      obtain ⟨hmem, -, hr⟩ := applying_eq_some happ
      have hway := ((h.live henabled).applies m hmem r rest hr).toUnderWay
      rcases rest with _ | ⟨w, rest⟩
      · exact hd.finish hway
      · exact Parts.Durable.work hd
    · exact hd
  · split
    · exact Parts.Durable.fail hd done rollback
    · exact hd
  · exact hd
  · split
    · exact Parts.Durable.climb hs hd cached _
    · exact hd
  · split <;> exact hd
  · exact ⟨hd.appended_le, hd.acknowledged⟩
  · have hclimb : (e.commit_through .lexical e.applied.watermark cached).Durable :=
      ⟨hd.appended_le, hd.acknowledged⟩
    exact hclimb.crash (Or.inr le_rfl)
  · exact Parts.Durable.crash hd (Or.inl henabled)
  · exact ⟨hd.appended_le, hd.acknowledged⟩
  · exact ⟨hd.appended_le, hd.acknowledged⟩

end Engine

end Laurus
