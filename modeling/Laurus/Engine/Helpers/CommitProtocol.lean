import Laurus.Engine.Helpers.Recovery

/-!
# What the steps of the commit protocol keep

A record is done once its mutation finished, and no store's checkpoint and no
ladder's snapshot goes past one that is not (`Behind`). In memory a document
is what the log makes of it unless a record under way touches it; on storage,
unless one above the checkpoint does (`Covers`). What a crash may take from
the log no store has persisted, so all that is said of the log is said of every
part of it that may be left.
-/

namespace Laurus

namespace Engine

variable {Id Doc : Type} {n : ℕ}

/-! ## Numbers that finished -/

/-- `seq` finished, or a raise covers it. -/
def Finished (s : AppliedSeqs.State) (seq : ℕ) : Prop :=
  seq ≤ s.watermark ∨ seq ∈ s.finished_above

/-- The state of the finished numbers, all below `bound`. -/
def Tracked (s : AppliedSeqs.State) (bound : ℕ) : Prop :=
  ∃ calls, AppliedSeqs.Tracks 0 calls s ∧ (∀ c ∈ calls, AppliedSeqs.Call.seq c < bound) ∧
    ∀ seq, Finished s seq → seq < bound

variable {s : AppliedSeqs.State} {seq bound : ℕ}

theorem Tracked.mono (h : Tracked s bound) {bound' : ℕ} (hle : bound ≤ bound') :
    Tracked s bound' := by
  obtain ⟨calls, htracks, hcalls, hfin⟩ := h
  exact ⟨calls, htracks, fun c hc => (hcalls c hc).trans_le hle,
    fun seq hseq => (hfin seq hseq).trans_le hle⟩

theorem Tracked.lt (h : Tracked s bound) (hseq : Finished s seq) : seq < bound :=
  let ⟨_, _, _, hfin⟩ := h
  hfin seq hseq

/-- **What a finish adds.** -/
theorem Tracked.finish (h : Tracked s bound) (hbound : bound ≤ 2 ^ 64 - 1) (hseq : seq < bound)
    (hpos : 0 < seq) : Tracked (AppliedSeqs.finish s seq) bound ∧
      ∀ k, Finished (AppliedSeqs.finish s seq) k ↔ Finished s k ∨ k = seq := by
  obtain ⟨calls, htracks, hcalls, hfin⟩ := h
  have hlt : ∀ c ∈ calls, AppliedSeqs.Call.seq c < 2 ^ 64 - 1 := fun c hc =>
    (hcalls c hc).trans_le hbound
  have hstep : AppliedSeqs.Tracks 0 (calls ++ [.finish seq]) (AppliedSeqs.finish s seq) :=
    htracks.step (c := .finish seq) hlt (hseq.trans_le hbound)
  have hiff : ∀ k, Finished (AppliedSeqs.finish s seq) k ↔ Finished s k ∨ k = seq := by
    intro k
    rcases Nat.eq_zero_or_pos k with rfl | hk
    · simp [Finished]
    · rw [Finished, Finished, ← hstep.done_iff k hk, ← htracks.done_iff k hk,
        AppliedSeqs.done_append, AppliedSeqs.done_finish]
  refine ⟨⟨_, hstep, ?_, fun k hk => ?_⟩, hiff⟩
  · simp only [List.forall_mem_append, List.forall_mem_singleton]
    exact ⟨hcalls, hseq⟩
  · rcases (hiff k).1 hk with hk | rfl
    · exact hfin k hk
    · exact hseq

theorem tracked_raise_to (h : seq < 2 ^ 64 - 1) :
    Tracked (AppliedSeqs.raise_to (AppliedSeqs.start 0) seq) (seq + 1) ∧
      ∀ k, Finished (AppliedSeqs.raise_to (AppliedSeqs.start 0) seq) k ↔ k ≤ seq := by
  have hrun : AppliedSeqs.Tracks 0 [.raise_to seq]
      (AppliedSeqs.raise_to (AppliedSeqs.start 0) seq) :=
    AppliedSeqs.tracks_run (by decide) (List.forall_mem_singleton.2 h)
  have hiff : ∀ k, Finished (AppliedSeqs.raise_to (AppliedSeqs.start 0) seq) k ↔ k ≤ seq := by
    intro k
    rcases Nat.eq_zero_or_pos k with rfl | hk
    · simp [Finished]
    · rw [Finished, ← hrun.done_iff k hk, AppliedSeqs.done_raise_to]
  exact ⟨⟨_, hrun, List.forall_mem_singleton.2 (Nat.lt_succ_self seq),
    fun k hk => Nat.lt_succ_of_le ((hiff k).1 hk)⟩, hiff⟩

/-! ## The invariant -/

/-- A piece of work is about a document of a store. -/
def Work.About : Work Id Doc n → Part n → ℕ → Prop
  | .delete part doc_id, p, d => part = p ∧ doc_id = d
  | .store_document _ _, _, _ => False
  | .upsert part doc_id _, p, d => part = p ∧ doc_id = d

namespace Parts

variable (p : Parts Id Doc n)

/-- The history, where a crash leaves `k` records of the log. -/
def kept (k : ℕ) : List (LogRecord Id Doc) := p.truncated ++ p.wal.take k

/-- What a store persisted is what the log makes of it, but for documents that
the log touches above `seq`. -/
def Covers (part : Part n) (seq : ℕ) : Prop :=
  ∀ k, p.persisted ≤ k → ∀ d, (∀ r ∈ p.wal.take k, seq < r.seq → ¬ r.Touches d) →
    (p.store part).disk d = target (p.kept k) d

/-- Every record up to `seq` has finished. -/
def Behind (seq : ℕ) : Prop :=
  seq < p.next_seq ∧ ∀ r ∈ p.wal, r.seq ≤ seq → Finished p.applied r.seq

/-- The log and what is on storage. -/
structure Stored : Prop where
  linear : Linear p.history
  sorted : p.wal.Pairwise fun r r' => r.seq < r'.seq
  pos : ∀ r ∈ p.wal, 0 < r.seq
  persisted_le : p.persisted ≤ p.appended
  appended_le : p.appended ≤ p.wal.length
  disk : ∀ part, p.Covers part (p.store part).checkpoint
  kept_docs : ∀ r ∈ p.truncated, ∀ d doc, r.upsert = some (d, doc) → (d, doc) ∈ p.committed
  committed : ∀ d doc, (d, doc) ∈ p.committed → ∃ r ∈ p.kept p.persisted, r.upsert = some (d, doc)

/-- The log and the stores of an open engine. -/
structure Ready : Prop where
  seq_lt : ∀ r ∈ p.wal, r.seq < p.next_seq
  next_pos : 0 < p.next_seq
  doc_lt : ∀ r ∈ p.history, ∀ d, r.Touches d → d < p.next_doc_id
  tracked : Tracked p.applied p.next_seq
  checkpoint : ∀ part, p.Behind (p.store part).checkpoint
  mem : ∀ k, p.appended ≤ k → ∀ part d,
    (∀ r ∈ p.wal.take k, ¬ Finished p.applied r.seq → ¬ r.Touches d) →
      (p.store part).mem d = target (p.kept k) d
  owned : ∀ part d id doc, (p.store part).mem d = some (id, doc) →
    ∃ r ∈ p.history, r.upsert = some (d, doc) ∧ r.external_id = id
  pending : ∀ d doc, (d, doc) ∈ p.pending → ∃ r ∈ p.kept p.appended, r.upsert = some (d, doc)
  stored : ∀ r ∈ p.wal, Finished p.applied r.seq → ∀ d doc, r.upsert = some (d, doc) →
    (d, doc) ∈ p.pending ++ p.committed
  failed : ∀ r ∈ p.wal.drop p.appended, ¬ Finished p.applied r.seq

/-- A mutation that looked its versions up. -/
structure Looks (m : Mutation Id Doc n) : Prop where
  finished : ∀ r ∈ p.wal, r.external_id = m.external_id → Finished p.applied r.seq
  previous : ∀ d, d ∈ m.previous ↔ m.request.any Prod.snd = false ∧
    ∃ doc, target p.history d = some (m.external_id, doc)

/-- A record that a call applies. -/
structure UnderWay (r : LogRecord Id Doc) : Prop where
  last : ∃ before after, p.wal = before ++ r :: after ∧ before.length < p.appended ∧
    ∀ r' ∈ after, r'.external_id ≠ r.external_id
  not_finished : ¬ Finished p.applied r.seq

/-- A mutation that applies its record: what is left of its work is an end of
it, and what came before is done. -/
structure Applies (m : Mutation Id Doc n) (r : LogRecord Id Doc) (rest : List (Work Id Doc n)) :
    Prop extends p.UnderWay r where
  external_id : r.external_id = m.external_id
  suffix : rest <:+ r.work n
  done : ∀ part d v, r.value d = some v → (∀ w ∈ rest, ¬ w.About part d) →
    (p.store part).mem d = v
  stored : ∀ d doc, r.upsert = some (d, doc) → .store_document d doc ∉ rest →
    (d, doc) ∈ p.pending ++ p.committed

/-- A ladder: what it committed it has persisted up to its snapshot. -/
structure Climbs (l : Ladder n) : Prop where
  behind : p.Behind l.applied_before
  last : .truncate ∈ l.rungs → ∃ rungs, l.rungs = rungs ++ [.truncate] ∧ .truncate ∉ rungs
  stores : .truncate ∈ l.rungs → ∀ part, .commit_through part ∉ l.rungs →
    p.Covers part l.applied_before
  docs : .truncate ∈ l.rungs → .commit_documents ∉ l.rungs → ∀ r ∈ p.wal,
    r.seq ≤ l.applied_before → ∀ d doc, r.upsert = some (d, doc) → (d, doc) ∈ p.committed

/-- **What a step of the parts keeps**, for the calls of the external ids that
it is not about. -/
structure Keeps (p p' : Parts Id Doc n) (other : Id → Prop) : Prop where
  stored : p'.Stored
  ready : p'.Ready
  looks : ∀ m, other m.external_id → p.Looks m → p'.Looks m
  applies : ∀ m r rest, other m.external_id → p.Applies m r rest → p'.Applies m r rest
  climbs : ∀ l, p.Climbs l → p'.Climbs l

end Parts

/-- An open engine. -/
structure Live (e : Engine Id Doc n) : Prop extends e.Ready where
  ids : (e.mutations.map Mutation.external_id).Nodup
  stop : e.write_stop = false → ∀ r ∈ e.wal, ¬ Finished e.applied r.seq →
    ∃ m ∈ e.mutations, ∃ rest, m.applying = some (r, rest)
  looks : ∀ m ∈ e.mutations, m.applying = none → e.Looks m
  applies : ∀ m ∈ e.mutations, ∀ r rest, m.applying = some (r, rest) → e.Applies m r rest
  ladders : ∀ l ∈ e.ladders, e.Climbs l

/-- A closed engine: nothing is under way, and the whole log is left. -/
structure Closed (e : Engine Id Doc n) : Prop where
  whole : e.persisted = e.wal.length
  mutations : e.mutations = []
  ladders : e.ladders = []
  write_stop : e.write_stop = false

/-- What every run keeps. -/
structure Inv (e : Engine Id Doc n) : Prop extends e.Stored where
  live : e.is_open = true → e.Live
  closed : e.is_open = false → e.Closed

/-! ## Work -/

variable {p : Parts Id Doc n} {r : LogRecord Id Doc} {l : List (LogRecord Id Doc)} {d : ℕ}
  {doc : Doc} {part part' : Part n} {other : Id → Prop}

theorem mem_apply_delete {w : Work Id Doc n} :
    w ∈ apply_delete n d ↔ ∃ part, w = .delete part d := by
  constructor
  · simp only [apply_delete, List.mem_cons, List.mem_map]
    rintro (rfl | ⟨field, -, rfl⟩)
    · exact ⟨.lexical, rfl⟩
    · exact ⟨.vector field, rfl⟩
  · rintro ⟨_ | field, rfl⟩ <;> simp [apply_delete]

theorem mem_apply_upsert {w : Work Id Doc n} {document : Id × Doc} :
    w ∈ apply_upsert n d document ↔
      w = .store_document d document.2 ∨ ∃ part, w = .upsert part d document := by
  constructor
  · simp only [apply_upsert, List.mem_cons, List.mem_map]
    rintro (rfl | rfl | ⟨field, -, rfl⟩)
    · exact Or.inl rfl
    · exact Or.inr ⟨.lexical, rfl⟩
    · exact Or.inr ⟨.vector field, rfl⟩
  · rintro (rfl | ⟨_ | field, rfl⟩) <;> simp [apply_upsert]

/-- **What a mutation does**, piece by piece. -/
theorem mem_work {w : Work Id Doc n} : w ∈ r.work n ↔
    (∃ part, ∃ d ∈ r.doc_ids, w = .delete part d) ∨ ∃ d doc, r.upsert = some (d, doc) ∧
      (w = .store_document d doc ∨ ∃ part, w = .upsert part d (r.external_id, doc)) := by
  rw [LogRecord.work, List.mem_append, List.mem_flatMap]
  rcases hup : r.upsert with _ | ⟨added, doc⟩
  · simp only [mem_apply_delete, List.not_mem_nil, or_false]
    grind
  · simp only [mem_apply_delete, mem_apply_upsert]
    grind

/-- A document that a record touches has a piece of work in each store. -/
theorem exists_work_about {v : Option (Id × Doc)} (h : r.value d = some v) (part : Part n) :
    ∃ w ∈ r.work n, w.About part d := by
  have ht : r.Touches d := by
    by_contra hnot
    rw [LogRecord.value_eq_none.2 hnot] at h
    cases h
  rcases ht with hdel | ⟨doc, hup⟩
  · exact ⟨.delete part d, mem_work.2 (Or.inl ⟨part, d, hdel, rfl⟩), rfl, rfl⟩
  · exact ⟨.upsert part d (r.external_id, doc),
      mem_work.2 (Or.inr ⟨d, doc, hup, Or.inr ⟨part, rfl⟩⟩), rfl, rfl⟩

/-! ## What each operation on the log and the stores keeps -/

namespace Parts

variable {Id Doc : Type} {n : ℕ} {p p' p'' : Parts Id Doc n} {r r' : LogRecord Id Doc}
  {m : Mutation Id Doc n} {rest : List (Work Id Doc n)} {d d' k seq : ℕ} {doc : Doc}
  {part part' : Part n} {other other' : Id → Prop} {v : Option (Id × Doc)}

theorem Keeps.trans (h : Keeps p p' other) (h' : Keeps p' p'' other) : Keeps p p'' other :=
  ⟨h'.stored, h'.ready, fun m hm hl => h'.looks m hm (h.looks m hm hl),
    fun m r rest hm ha => h'.applies m r rest hm (h.applies m r rest hm ha),
    fun l hl => h'.climbs l (h.climbs l hl)⟩

theorem Keeps.refl (hs : p.Stored) (hr : p.Ready) : Keeps p p other :=
  ⟨hs, hr, fun _ _ h => h, fun _ _ _ _ h => h, fun _ h => h⟩

/-! ## The log -/

theorem kept_of_le (h : p.wal.length ≤ k) : p.kept k = p.history := by
  rw [kept, List.take_of_length_le h, history]

theorem mem_kept_mono {k' : ℕ} (h : k ≤ k') (hr : r ∈ p.kept k) : r ∈ p.kept k' :=
  (List.mem_append.1 hr).elim (List.mem_append_left _) fun hr =>
    List.mem_append_right _ (List.take_subset_take_left _ h hr)

theorem mem_history_of_kept (hr : r ∈ p.kept k) : r ∈ p.history :=
  (List.mem_append.1 hr).elim (List.mem_append_left _) fun hr =>
    List.mem_append_right _ (List.mem_of_mem_take hr)

theorem UnderWay.mem_take (h : p.UnderWay r) (hk : p.appended ≤ k) : r ∈ p.wal.take k := by
  obtain ⟨before, after, hwal, hlt, -⟩ := h.last
  rw [hwal, List.take_append, List.mem_append]
  refine Or.inr ?_
  obtain ⟨j, hj⟩ := Nat.exists_eq_add_of_lt (hlt.trans_le hk)
  rw [show k - before.length = j + 1 by omega, List.take_succ_cons]
  exact List.mem_cons_self

theorem UnderWay.mem_wal (h : p.UnderWay r) : r ∈ p.wal := List.mem_of_mem_take (h.mem_take le_rfl)

theorem UnderWay.mem_history (h : p.UnderWay r) : r ∈ p.history :=
  List.mem_append_right _ h.mem_wal

theorem Covers.mono (h : p.Covers part seq) {seq' : ℕ} (hle : seq' ≤ seq) : p.Covers part seq' :=
  fun k hk d hd => h k hk d fun r hr hlt => hd r hr (by omega)

/-! ## Memory -/

/-- A document changes in the memory of a store. -/
def set_mem (p : Parts Id Doc n) (part : Part n) (d : ℕ) (v : Option (Id × Doc)) : Parts Id Doc n :=
  p.set_store part { p.store part with mem := Function.update (p.store part).mem d v }

theorem set_mem_disk : ((p.set_mem part d v).store part').disk = (p.store part').disk := by
  by_cases h : part' = part <;> simp [set_mem, set_store, h]

theorem set_mem_checkpoint :
    ((p.set_mem part d v).store part').checkpoint = (p.store part').checkpoint := by
  by_cases h : part' = part <;> simp [set_mem, set_store, h]

theorem set_mem_of_ne (h : part' ≠ part ∨ d' ≠ d) :
    ((p.set_mem part d v).store part').mem d' = (p.store part').mem d' := by
  by_cases hpart : part' = part
  · have hd : d' ≠ d := h.resolve_left (not_not.2 hpart)
    subst hpart
    simp [set_mem, set_store, hd]
  · simp [set_mem, set_store, hpart]

theorem set_mem_self : ((p.set_mem part d v).store part).mem d = v := by
  simp [set_mem, set_store]

theorem covers_set_mem : (p.set_mem part d v).Covers part' seq ↔ p.Covers part' seq := by
  unfold Covers
  rw [set_mem_disk]
  exact Iff.rfl

theorem Stored.set_mem (h : p.Stored) : (p.set_mem part d v).Stored where
  linear := h.linear
  sorted := h.sorted
  pos := h.pos
  persisted_le := h.persisted_le
  appended_le := h.appended_le
  disk part' := by
    rw [set_mem_checkpoint]
    exact covers_set_mem.2 (h.disk part')
  kept_docs := h.kept_docs
  committed := h.committed

theorem Climbs.set_mem {l : Ladder n} (h : p.Climbs l) : (p.set_mem part d v).Climbs l :=
  ⟨h.behind, h.last, fun hmem part' hpart => covers_set_mem.2 (h.stores hmem part' hpart), h.docs⟩

/-- **A call changes in memory** only what its record touches. -/
theorem Keeps.set_mem (hs : p.Stored) (hr : p.Ready) (hway : p.UnderWay r) (ht : r.Touches d)
    (hown : ∀ id doc, v = some (id, doc) → r.upsert = some (d, doc) ∧ r.external_id = id) :
    Keeps p (p.set_mem part d v) (· ≠ r.external_id) where
  stored := hs.set_mem
  ready := {
    seq_lt := hr.seq_lt
    next_pos := hr.next_pos
    doc_lt := hr.doc_lt
    tracked := hr.tracked
    checkpoint := fun part' => by
      rw [set_mem_checkpoint]
      exact hr.checkpoint part'
    mem := by
      intro k hk part' d' hd'
      have hne : d' ≠ d := by
        rintro rfl
        exact hd' r (hway.mem_take hk) hway.not_finished ht
      rw [set_mem_of_ne (Or.inr hne)]
      exact hr.mem k hk part' d' hd'
    owned := by
      intro part' d' id doc hmem
      by_cases heq : part' = part ∧ d' = d
      · rw [heq.1, heq.2, set_mem_self] at hmem
        rw [heq.2]
        exact ⟨r, hway.mem_history, hown id doc hmem⟩
      · rw [set_mem_of_ne (not_and_or.1 heq)] at hmem
        exact hr.owned part' d' id doc hmem
    pending := hr.pending
    stored := hr.stored
    failed := hr.failed }
  looks m _ h := ⟨h.finished, h.previous⟩
  applies m r' rest hm h := by
    refine ⟨⟨h.last, h.not_finished⟩, h.external_id, h.suffix, ?_, h.stored⟩
    intro part' d' v' hv hrest
    have hne : d' ≠ d := by
      rintro rfl
      have ht' : r'.Touches d' := by
        by_contra hnot
        rw [LogRecord.value_eq_none.2 hnot] at hv
        cases hv
      refine hm ?_
      rw [← h.external_id]
      exact hs.linear.external_id_eq h.mem_history hway.mem_history ht' ht
    rw [set_mem_of_ne (Or.inr hne)]
    exact h.done part' d' v' hv hrest
  climbs l h := h.set_mem

/-- The document store takes a document. -/
theorem Keeps.store_document (hs : p.Stored) (hr : p.Ready) (hway : p.UnderWay r)
    (hup : r.upsert = some (d, doc)) :
    Keeps p { p with pending := (d, doc) :: p.pending } other where
  stored := {
    linear := hs.linear
    sorted := hs.sorted
    pos := hs.pos
    persisted_le := hs.persisted_le
    appended_le := hs.appended_le
    disk := hs.disk
    kept_docs := hs.kept_docs
    committed := hs.committed }
  ready := {
    seq_lt := hr.seq_lt
    next_pos := hr.next_pos
    doc_lt := hr.doc_lt
    tracked := hr.tracked
    checkpoint := hr.checkpoint
    mem := hr.mem
    owned := hr.owned
    pending := by
      intro d' doc' hmem
      rcases List.mem_cons.1 hmem with heq | hmem
      · rw [Prod.mk.injEq] at heq
        rw [heq.1, heq.2]
        exact ⟨r, List.mem_append_right _ (hway.mem_take le_rfl), hup⟩
      · exact hr.pending d' doc' hmem
    stored := fun r hr' hfin d doc hup => List.mem_cons_of_mem _ (hr.stored r hr' hfin d doc hup)
    failed := hr.failed }
  looks m _ h := ⟨h.finished, h.previous⟩
  applies m r rest _ h := ⟨⟨h.last, h.not_finished⟩, h.external_id, h.suffix, h.done,
    fun d doc hup hrest => List.mem_cons_of_mem _ (h.stored d doc hup hrest)⟩
  climbs l h := ⟨h.behind, h.last, h.stores, h.docs⟩

/-- **A piece of work** of a record under way, done. -/
theorem Keeps.work (hs : p.Stored) (hr : p.Ready) (hway : p.UnderWay r) {w : Work Id Doc n}
    (hw : w ∈ r.work n) : Keeps p (p.work w) (· ≠ r.external_id) := by
  rcases mem_work.1 hw with ⟨part, d, hdel, rfl⟩ | ⟨d, doc, hup, rfl | ⟨part, rfl⟩⟩
  · exact Keeps.set_mem hs hr hway (Or.inl hdel) fun id doc h => by cases h
  · exact Keeps.store_document hs hr hway hup
  · refine Keeps.set_mem hs hr hway (Or.inr ⟨doc, hup⟩) fun id doc' h => ?_
    cases h
    exact ⟨hup, rfl⟩

theorem work_wal {w : Work Id Doc n} : (p.work w).wal = p.wal ∧ (p.work w).applied = p.applied ∧
    (p.work w).appended = p.appended := by
  rcases w with _ | _ | _ <;> exact ⟨rfl, rfl, rfl⟩

theorem UnderWay.work (h : p.UnderWay r) (w : Work Id Doc n) : (p.work w).UnderWay r := by
  rcases w with _ | _ | _ <;> exact ⟨h.last, h.not_finished⟩

/-- **A piece of work that fails**, with what is undone of it. -/
theorem Keeps.fail (hs : p.Stored) (hr : p.Ready) (hway : p.UnderWay r) {w : Work Id Doc n}
    (hw : w ∈ r.work n) (done rollback : Bool) :
    Keeps p (p.fail w done rollback) (· ≠ r.external_id) := by
  have hdone : Keeps p (if done = true then p.work w else p) (· ≠ r.external_id) := by
    split
    · exact Keeps.work hs hr hway hw
    · exact Keeps.refl hs hr
  have hway' : (if done = true then p.work w else p).UnderWay r := by
    split
    · exact hway.work w
    · exact hway
  unfold Parts.fail
  generalize (if done = true then p.work w else p) = q at hdone hway' ⊢
  split
  · rename_i field doc_id document
    refine hdone.trans (Keeps.set_mem hdone.stored hdone.ready hway' ?_ fun id doc h => by cases h)
    rcases mem_work.1 hw with ⟨part, d, hdel, heq⟩ | ⟨d, doc, hup, heq | ⟨part, heq⟩⟩
    · cases heq
    · cases heq
    · cases heq
      exact Or.inr ⟨doc, hup⟩
  · exact hdone

/-- What is left of the work after a piece of it. -/
theorem Applies.next {w : Work Id Doc n} (hs : p.Stored) (h : p.Applies m r (w :: rest)) :
    (p.work w).Applies { m with applying := some (r, rest) } r rest := by
  have hw : w ∈ r.work n := h.suffix.subset List.mem_cons_self
  refine ⟨h.toUnderWay.work w, h.external_id, (List.suffix_cons w rest).trans h.suffix, ?_, ?_⟩
  · intro part' d' v' hv hrest
    -- what this piece makes of the document is its record's value
    have hnow : w.About part' d' → ((p.work w).store part').mem d' = v' := by
      rcases mem_work.1 hw with ⟨part, d, hdel, rfl⟩ | ⟨d, doc, hup, rfl | ⟨part, rfl⟩⟩
      · rintro ⟨rfl, rfl⟩
        have hne : ∀ doc, r.upsert ≠ some (d, doc) := fun doc hup =>
          hs.linear.upsert_not_mem h.mem_history hup hdel
        rw [LogRecord.value_delete hdel hne] at hv
        exact set_mem_self.trans (Option.some.inj hv)
      · exact False.elim
      · rintro ⟨rfl, rfl⟩
        rw [LogRecord.value_upsert hup] at hv
        exact set_mem_self.trans (Option.some.inj hv)
    by_cases habout : w.About part' d'
    · exact hnow habout
    · have hold := h.done part' d' v' hv (List.forall_mem_cons.2 ⟨habout, hrest⟩)
      rw [← hold]
      rcases w with ⟨part, d⟩ | ⟨d, doc⟩ | ⟨part, d, document⟩
      · refine set_mem_of_ne ?_
        by_contra hnot
        push Not at hnot
        exact habout ⟨hnot.1.symm, hnot.2.symm⟩
      · rfl
      · refine set_mem_of_ne ?_
        by_contra hnot
        push Not at hnot
        exact habout ⟨hnot.1.symm, hnot.2.symm⟩
  · intro d doc hup hrest
    by_cases heq : w = .store_document d doc
    · subst heq
      exact List.mem_cons_self
    · have hold := h.stored d doc hup (by
        rw [List.mem_cons, not_or]
        exact ⟨fun h => heq h.symm, hrest⟩)
      rcases w with _ | _ | _
      · exact hold
      · exact List.mem_cons_of_mem _ hold
      · exact hold

/-! ## Finishing -/

/-- Records of one number are one. -/
theorem Stored.eq_of_seq (h : p.Stored) (hr : r ∈ p.wal) (hr' : r' ∈ p.wal)
    (heq : r.seq = r'.seq) : r = r' := by
  obtain ⟨before, after, hwal⟩ := List.append_of_mem hr
  have hsorted := h.sorted
  rw [hwal] at hr' hsorted
  obtain ⟨-, hcons, hbefore⟩ := List.pairwise_append.1 hsorted
  rcases List.mem_append.1 hr' with hmem | hmem
  · have := hbefore r' hmem r List.mem_cons_self
    omega
  · rcases List.mem_cons.1 hmem with rfl | hmem
    · rfl
    · have := (List.pairwise_cons.1 hcons).1 r' hmem
      omega

/-- What a call that appended after a failed append never was. -/
theorem Stored.seq_lt_of_drop (h : p.Stored) (hr : r ∈ p.wal.take k) (hr' : r' ∈ p.wal.drop k) :
    r.seq < r'.seq := by
  have hsorted := h.sorted
  rw [← List.take_append_drop k p.wal] at hsorted
  exact (List.pairwise_append.1 hsorted).2.2 r hr r' hr'

/-- A record that is applied last to a document has made it what it is. -/
theorem Applies.mem_eq (hs : p.Stored) (h : p.Applies m r []) (ht : r.Touches d)
    (hk : p.appended ≤ k) : (p.store part).mem d = target (p.kept k) d := by
  obtain ⟨v, hv⟩ := Option.ne_none_iff_exists'.1 (mt LogRecord.value_eq_none.1 (not_not.2 ht))
  rw [h.done part d v hv fun w hw => absurd hw List.not_mem_nil]
  obtain ⟨before, after, hwal, hlt, hafter⟩ := h.last
  obtain ⟨j, hj⟩ := Nat.exists_eq_add_of_lt (hlt.trans_le hk)
  have htake : p.kept k = (p.truncated ++ before) ++ r :: after.take j := by
    rw [kept, hwal, List.take_append, List.take_of_length_le (by omega),
      show k - before.length = j + 1 by omega, List.take_succ_cons, List.append_assoc]
  rw [htake]
  refine (target_of_last hv fun r' hr' ht' => ?_).symm
  have hmem := List.mem_of_mem_take hr'
  have hhist : r' ∈ p.history := List.mem_append_right _ (by
    rw [hwal]
    exact List.mem_append_right _ (List.mem_cons_of_mem _ hmem))
  exact hafter r' hmem (hs.linear.external_id_eq hhist h.mem_history ht' ht)

/-- **A mutation finishes.** -/
theorem Keeps.finish (hs : p.Stored) (hr : p.Ready) (h : p.Applies m r [])
    (hbound : p.next_seq ≤ 2 ^ 64 - 1) : Keeps p (p.finish r) (· ≠ r.external_id) := by
  obtain ⟨htracked, hfin⟩ := hr.tracked.finish hbound (hr.seq_lt r h.mem_wal) (hs.pos r h.mem_wal)
  have hmono : ∀ {seq}, Finished p.applied seq → Finished (p.finish r).applied seq :=
    fun hseq => (hfin _).2 (Or.inl hseq)
  have hbehind : ∀ {seq}, p.Behind seq → (p.finish r).Behind seq :=
    fun hb => ⟨hb.1, fun r hr hle => hmono (hb.2 r hr hle)⟩
  exact {
    stored := {
      linear := hs.linear
      sorted := hs.sorted
      pos := hs.pos
      persisted_le := hs.persisted_le
      appended_le := hs.appended_le
      disk := hs.disk
      kept_docs := hs.kept_docs
      committed := hs.committed }
    ready := {
      seq_lt := hr.seq_lt
      next_pos := hr.next_pos
      doc_lt := hr.doc_lt
      tracked := htracked
      checkpoint := fun part => hbehind (hr.checkpoint part)
      mem := by
        intro k hk part d hd
        by_cases ht : r.Touches d
        · have hmem : (p.store part).mem d = target (p.kept k) d := h.mem_eq hs ht hk
          exact hmem
        · refine hr.mem k hk part d fun r' hr' hnot ht' => ?_
          by_cases heq : r'.seq = r.seq
          · rw [hs.eq_of_seq (List.mem_of_mem_take hr') h.mem_wal heq] at ht'
            exact ht ht'
          · refine hd r' hr' (fun hfin' => ?_) ht'
            exact ((hfin _).1 hfin').elim hnot heq
      owned := hr.owned
      pending := hr.pending
      stored := by
        intro r' hr' hfin' d doc hup
        rcases (hfin _).1 hfin' with hold | heq
        · exact hr.stored r' hr' hold d doc hup
        · obtain rfl := hs.eq_of_seq hr' h.mem_wal heq
          exact h.stored d doc hup List.not_mem_nil
      failed := by
        intro r' hr' hfin'
        rcases (hfin _).1 hfin' with hold | heq
        · exact hr.failed r' hr' hold
        · have := hs.seq_lt_of_drop (h.mem_take le_rfl) hr'
          omega }
    looks := fun m _ hl => ⟨fun r hr hid => hmono (hl.finished r hr hid), hl.previous⟩
    applies := by
      intro m' r' rest hne h'
      refine ⟨⟨h'.last, fun hfin' => ?_⟩, h'.external_id, h'.suffix, h'.done, h'.stored⟩
      rcases (hfin _).1 hfin' with hold | heq
      · exact h'.not_finished hold
      · obtain rfl := hs.eq_of_seq h'.mem_wal h.mem_wal heq
        exact hne h'.external_id.symm
    climbs := fun l hl => ⟨hbehind hl.behind, hl.last, hl.stores, hl.docs⟩ }

/-! ## Appending -/

/-- The numbers of a record are taken. -/
theorem Keeps.number (hs : p.Stored) (hr : p.Ready) (torn : Bool) :
    Keeps p { p.number m with torn } other := by
  have hdoc : p.next_doc_id ≤ (p.number m).next_doc_id := by
    rw [Parts.number]
    dsimp only
    split <;> omega
  have hbehind : ∀ {seq}, p.Behind seq → ({ p.number m with torn } : Parts Id Doc n).Behind seq :=
    fun hb => ⟨Nat.lt_succ_of_lt hb.1, hb.2⟩
  exact {
    stored := {
      linear := hs.linear
      sorted := hs.sorted
      pos := hs.pos
      persisted_le := hs.persisted_le
      appended_le := hs.appended_le
      disk := hs.disk
      kept_docs := hs.kept_docs
      committed := hs.committed }
    ready := {
      seq_lt := fun r hr' => Nat.lt_succ_of_lt (hr.seq_lt r hr')
      next_pos := Nat.succ_pos _
      doc_lt := fun r hr' d ht => (hr.doc_lt r hr' d ht).trans_le hdoc
      tracked := hr.tracked.mono (Nat.le_succ _)
      checkpoint := fun part => hbehind (hr.checkpoint part)
      mem := hr.mem
      owned := hr.owned
      pending := hr.pending
      stored := hr.stored
      failed := hr.failed }
    looks := fun m _ h => ⟨h.finished, h.previous⟩
    applies := fun m r rest _ h => ⟨⟨h.last, h.not_finished⟩, h.external_id, h.suffix, h.done,
      h.stored⟩
    climbs := fun l h => ⟨hbehind h.behind, h.last, h.stores, h.docs⟩ }

/-- The log grows by the record of a mutation. -/
def grow (p : Parts Id Doc n) (m : Mutation Id Doc n) (synced appended : ℕ) (torn : Bool) :
    Parts Id Doc n :=
  { p.number m with wal := p.wal ++ [p.record_of m], synced, appended, torn }

variable {synced appended : ℕ} {torn : Bool}

/-- What a crash may leave of a log that grew. -/
theorem take_grow (hk : k ≤ p.wal.length) :
    (p.grow m synced appended torn).wal.take k = p.wal.take k :=
  List.take_append_of_le_length hk

theorem take_grow_of_lt (hk : p.wal.length < k) :
    (p.grow m synced appended torn).wal.take k = p.wal ++ [p.record_of m] :=
  List.take_of_length_le (by simp [grow]; omega)

theorem Covers.grow (hs : p.Stored) (h : p.Covers part seq) (hseq : seq < p.next_seq) :
    (p.grow m synced appended torn).Covers part seq := by
  intro k hk d hd
  rcases Nat.lt_or_ge p.wal.length k with hlt | hle
  · rw [take_grow_of_lt hlt, List.forall_mem_append, List.forall_mem_singleton] at hd
    rw [kept, take_grow_of_lt hlt, ← List.append_assoc]
    refine Eq.trans ?_ (target_append (List.forall_mem_singleton.2 (hd.2 hseq))).symm
    have hwhole := h p.wal.length (hs.persisted_le.trans hs.appended_le) d (by
      rw [List.take_length]
      exact hd.1)
    rwa [kept, List.take_length] at hwhole
  · rw [take_grow hle] at hd
    rw [kept, take_grow hle]
    exact h k hk d hd

theorem Behind.grow (h : p.Behind seq) : (p.grow m synced appended torn).Behind seq := by
  refine ⟨Nat.lt_succ_of_lt h.1, fun r hr hle => ?_⟩
  rcases List.mem_append.1 hr with hr | hr
  · exact h.2 r hr hle
  · rw [List.mem_singleton.1 hr] at hle
    have := h.1
    change p.next_seq ≤ seq at hle
    omega

/-- **The record of a mutation that looked its versions up** continues the
log. -/
theorem Looks.linear (hs : p.Stored) (hr : p.Ready) (h : p.Looks m) :
    Linear (p.history ++ [p.record_of m]) := by
  refine hs.linear.concat ?_ h.previous ?_
  · intro d doc hup r hr' d' ht
    obtain ⟨request, -, heq⟩ := Option.map_eq_some_iff.1 hup
    rw [Prod.mk.injEq] at heq
    rw [← heq.1]
    exact hr.doc_lt r hr' d' ht
  · intro hchunk
    rcases hrequest : m.request with _ | request
    · simp [record_of, hrequest] at hchunk
    · simp [record_of, hrequest]

variable [DecidableEq Id]

/-- **The log grows.** -/
theorem Keeps.grow (hs : p.Stored) (hr : p.Ready) (h : p.Looks m) (hle : p.appended ≤ appended)
    (hlen : appended ≤ p.wal.length + 1) :
    Keeps p (p.grow m synced appended torn) (· ≠ m.external_id) := by
  have hlinear := h.linear hs hr
  have hhistory : (p.grow m synced appended torn).history = p.history ++ [p.record_of m] :=
    (List.append_assoc _ _ _).symm
  have hnot : ¬ Finished p.applied p.next_seq := fun hfin =>
    absurd (hr.tracked.lt hfin) (lt_irrefl _)
  have hdoc : p.next_doc_id ≤ (p.number m).next_doc_id := by
    rw [Parts.number]
    dsimp only
    split <;> omega
  have hkept : ∀ {k r}, k ≤ p.wal.length → r ∈ p.kept k →
      r ∈ (p.grow m synced appended torn).kept k := by
    intro k r hk hr
    rwa [kept, take_grow hk]
  exact {
    stored := {
      linear := hhistory ▸ hlinear
      sorted := List.pairwise_append.2 ⟨hs.sorted, List.pairwise_singleton _ _, by
        intro r hr' r' hr''
        rw [List.mem_singleton.1 hr'']
        exact hr.seq_lt r hr'⟩
      pos := List.forall_mem_append.2 ⟨hs.pos, List.forall_mem_singleton.2 hr.next_pos⟩
      persisted_le := hs.persisted_le.trans hle
      appended_le := by
        rw [Parts.grow]
        simpa using hlen
      disk := fun part => (hs.disk part).grow hs (hr.checkpoint part).1
      kept_docs := hs.kept_docs
      committed := by
        intro d doc hmem
        obtain ⟨r, hr, hup⟩ := hs.committed d doc hmem
        exact ⟨r, hkept (hs.persisted_le.trans hs.appended_le) hr, hup⟩ }
    ready := {
      seq_lt := List.forall_mem_append.2 ⟨fun r hr' => Nat.lt_succ_of_lt (hr.seq_lt r hr'),
        List.forall_mem_singleton.2 (Nat.lt_succ_self _)⟩
      next_pos := Nat.succ_pos _
      doc_lt := by
        rw [hhistory]
        refine List.forall_mem_append.2 ⟨fun r hr' d ht => (hr.doc_lt r hr' d ht).trans_le hdoc,
          List.forall_mem_singleton.2 ?_⟩
        rintro d (hdel | ⟨doc, hup⟩)
        · obtain ⟨-, doc, htarget⟩ := (h.previous d).1 hdel
          obtain ⟨r, hr', hup, -⟩ := exists_of_target htarget
          exact (hr.doc_lt r hr' d (Or.inr ⟨doc, hup⟩)).trans_le hdoc
        · obtain ⟨request, hrequest, heq⟩ := Option.map_eq_some_iff.1 hup
          rw [Prod.mk.injEq] at heq
          rw [← heq.1]
          simp [Parts.grow, Parts.number, hrequest]
      tracked := hr.tracked.mono (Nat.le_succ _)
      checkpoint := fun part => (hr.checkpoint part).grow
      mem := by
        intro k hk part d hd
        rcases Nat.lt_or_ge p.wal.length k with hlt | hge
        · rw [take_grow_of_lt hlt, List.forall_mem_append, List.forall_mem_singleton] at hd
          rw [kept, take_grow_of_lt hlt, ← List.append_assoc]
          refine Eq.trans ?_ (target_append (List.forall_mem_singleton.2 (hd.2 hnot))).symm
          have hwhole := hr.mem p.wal.length hs.appended_le part d (by
            rw [List.take_length]
            exact hd.1)
          rwa [kept, List.take_length] at hwhole
        · rw [take_grow hge] at hd
          rw [kept, take_grow hge]
          exact hr.mem k (hle.trans hk) part d hd
      owned := by
        intro part d id doc hmem
        obtain ⟨r, hr', hup⟩ := hr.owned part d id doc hmem
        rw [hhistory]
        exact ⟨r, List.mem_append_left _ hr', hup⟩
      pending := by
        intro d doc hmem
        obtain ⟨r, hr, hup⟩ := hr.pending d doc hmem
        exact ⟨r, mem_kept_mono hle (hkept hs.appended_le hr), hup⟩
      stored := List.forall_mem_append.2 ⟨hr.stored,
        List.forall_mem_singleton.2 fun hfin => absurd hfin hnot⟩
      failed := by
        intro r hr'
        have hmem := List.drop_subset_drop_left _ hle hr'
        rw [Parts.grow, List.drop_append_of_le_length hs.appended_le] at hmem
        rcases List.mem_append.1 hmem with hmem | hmem
        · exact hr.failed r hmem
        · rw [List.mem_singleton.1 hmem]
          exact hnot }
    looks := by
      intro m' hne h'
      refine ⟨List.forall_mem_append.2 ⟨h'.finished, List.forall_mem_singleton.2 fun hid =>
        absurd hid.symm hne⟩, fun d => ?_⟩
      rw [hhistory, h'.previous d]
      have hver := version_of_concat_ne (d := d) hlinear (Ne.symm hne)
      simp only [← version_of_eq_some, hver]
    applies := by
      intro m' r' rest hne h'
      obtain ⟨before, after, hwal, hlt, hafter⟩ := h'.last
      refine ⟨⟨⟨before, after ++ [p.record_of m], ?_, hlt.trans_le hle, ?_⟩, h'.not_finished⟩,
        h'.external_id, h'.suffix, h'.done, h'.stored⟩
      · rw [Parts.grow, hwal]
        simp
      · refine List.forall_mem_append.2 ⟨hafter, List.forall_mem_singleton.2 fun hid => hne ?_⟩
        rw [← h'.external_id, ← hid]
        rfl
    climbs := fun l hl => ⟨hl.behind.grow, hl.last,
      fun hmem part hpart => (hl.stores hmem part hpart).grow hs hl.behind.1,
      fun hmem hdocs => List.forall_mem_append.2 ⟨hl.docs hmem hdocs,
        List.forall_mem_singleton.2 fun hle' => absurd hle' (not_le.2 hl.behind.1)⟩⟩ }

omit [DecidableEq Id] in
/-- **An append that returns** leaves all the work to do. -/
theorem Applies.append (hr : p.Ready) (sync : Bool) :
    (p.append m sync).Applies { m with applying := some (p.record_of m, (p.record_of m).work n) }
      (p.record_of m) ((p.record_of m).work n) where
  last := ⟨p.wal, [], rfl, by simp [Parts.append], fun r hr => absurd hr List.not_mem_nil⟩
  not_finished hfin := absurd (hr.tracked.lt hfin) (lt_irrefl _)
  external_id := rfl
  suffix := List.suffix_refl _
  done part d v hv hrest := by
    obtain ⟨w, hw, habout⟩ := exists_work_about hv part
    exact absurd habout (hrest w hw)
  stored d doc hup hrest :=
    absurd (mem_work.2 (Or.inr ⟨d, doc, hup, Or.inl rfl⟩)) hrest

end Parts

end Engine

end Laurus
