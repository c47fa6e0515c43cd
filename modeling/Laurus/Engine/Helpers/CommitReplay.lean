import Laurus.Engine.Helpers.CommitProtocol

/-!
# Persisting, truncating and replaying

What the steps of a ladder keep, what a crash leaves, and that the replay makes
of it what the log says.
-/

namespace Laurus

namespace Engine

namespace Parts

variable {Id Doc : Type} {n : ℕ} {p : Parts Id Doc n} {r : LogRecord Id Doc} {d k seq w : ℕ}
  {doc : Doc} {part part' : Part n} {other : Id → Prop} {store : Store Id Doc}

/-! ## Persisting -/

/-- A store's part on storage changes, from what is in memory. -/
def set_disk (p : Parts Id Doc n) (part : Part n) (store : Store Id Doc) : Parts Id Doc n :=
  { p.set_store part store with persisted := p.appended }

theorem set_disk_of_ne (h : part' ≠ part) : (p.set_disk part store).store part' = p.store part' :=
  Function.update_of_ne h _ _

theorem set_disk_self : (p.set_disk part store).store part = store := Function.update_self _ _ _

/-- **What is in memory is what the log makes of it**, but for documents that
it touches above a number up to which all finished. -/
theorem Ready.mem_of_behind (hr : p.Ready) (hb : p.Behind seq) (hk : p.appended ≤ k)
    (hd : ∀ r ∈ p.wal.take k, seq < r.seq → ¬ r.Touches d) :
    (p.store part).mem d = target (p.kept k) d := by
  refine hr.mem k hk part d fun r hmem hnot => hd r hmem ?_
  by_contra hle
  exact hnot (hb.2 r (List.mem_of_mem_take hmem) (not_lt.1 hle))

/-- A store that takes over some of its memory covers what it did. -/
theorem Covers.set_disk (hs : p.Stored) (hr : p.Ready) (h : p.Covers part' seq) (hb : p.Behind seq)
    (hdisk : ∀ d, store.disk d = (p.store part).mem d ∨ store.disk d = (p.store part).disk d) :
    (p.set_disk part store).Covers part' seq := by
  intro k hk d hd
  have hold : (p.store part').disk d = target (p.kept k) d := h k (hs.persisted_le.trans hk) d hd
  by_cases hpart : part' = part
  · subst hpart
    rw [set_disk_self]
    rcases hdisk d with heq | heq
    · exact heq.trans (hr.mem_of_behind hb hk hd)
    · exact heq.trans hold
  · rw [set_disk_of_ne hpart]
    exact hold

/-- **A store that takes over its memory covers all that finished.** -/
theorem covers_set_disk (hr : p.Ready) (hb : p.Behind seq)
    (hdisk : store.disk = (p.store part).mem) : (p.set_disk part store).Covers part seq := by
  intro k hk d hd
  rw [set_disk_self, hdisk]
  exact hr.mem_of_behind hb hk hd

/-- **A store is persisted**, in part with its checkpoint where it was, or as
a whole. -/
theorem Keeps.set_disk (hs : p.Stored) (hr : p.Ready) (hmem : store.mem = (p.store part).mem)
    (hdisk : ∀ d, store.disk d = (p.store part).mem d ∨ store.disk d = (p.store part).disk d)
    (hcheckpoint : store.checkpoint = (p.store part).checkpoint ∨
      store.disk = (p.store part).mem ∧ p.Behind store.checkpoint) :
    Keeps p (p.set_disk part store) other := by
  have hsame : ∀ part', ((p.set_disk part store).store part').mem = (p.store part').mem := by
    intro part'
    by_cases hpart : part' = part
    · subst hpart
      rw [set_disk_self, hmem]
    · rw [set_disk_of_ne hpart]
  have hbehind : p.Behind store.checkpoint := by
    rcases hcheckpoint with heq | ⟨-, hb⟩
    · rw [heq]
      exact hr.checkpoint part
    · exact hb
  have hcovers : ∀ {part' seq}, p.Behind seq → p.Covers part' seq →
      (p.set_disk part store).Covers part' seq := fun hb h => h.set_disk hs hr hb hdisk
  exact {
    stored := {
      linear := hs.linear
      sorted := hs.sorted
      pos := hs.pos
      persisted_le := le_rfl
      appended_le := hs.appended_le
      disk := by
        intro part'
        by_cases hpart : part' = part
        · subst hpart
          rw [set_disk_self]
          rcases hcheckpoint with heq | ⟨hall, -⟩
          · exact hcovers hbehind (heq ▸ hs.disk part')
          · exact covers_set_disk hr hbehind hall
        · rw [set_disk_of_ne hpart]
          exact hcovers (hr.checkpoint part') (hs.disk part')
      kept_docs := hs.kept_docs
      committed := fun d doc hmem =>
        let ⟨r, hr, hup⟩ := hs.committed d doc hmem
        ⟨r, mem_kept_mono hs.persisted_le hr, hup⟩ }
    ready := {
      seq_lt := hr.seq_lt
      next_pos := hr.next_pos
      doc_lt := hr.doc_lt
      tracked := hr.tracked
      checkpoint := by
        intro part'
        by_cases hpart : part' = part
        · subst hpart
          rw [set_disk_self]
          exact hbehind
        · rw [set_disk_of_ne hpart]
          exact hr.checkpoint part'
      mem := fun k hk part' d hd => (congrFun (hsame part') d).trans (hr.mem k hk part' d hd)
      owned := by
        intro part' d id doc hown
        rw [hsame] at hown
        exact hr.owned part' d id doc hown
      pending := hr.pending
      stored := hr.stored
      failed := hr.failed }
    looks := fun m _ h => ⟨h.finished, h.previous⟩
    applies := fun m r rest _ h => ⟨⟨h.last, h.not_finished⟩, h.external_id, h.suffix,
      fun part' d v hv hrest => (congrFun (hsame part') d).trans (h.done part' d v hv hrest),
      h.stored⟩
    climbs := fun l h => ⟨h.behind, h.last,
      fun hmem part' hpart => hcovers h.behind (h.stores hmem part' hpart), h.docs⟩ }

/-- **A store commits through a number** up to which all finished. -/
theorem Keeps.commit_through (hs : p.Stored) (hr : p.Ready) (hb : p.Behind seq) (cached : Bool) :
    Keeps p (p.commit_through part seq cached) other ∧
      (p.commit_through part seq cached).Covers part seq := by
  have hbehind : p.Behind ((p.store part).commit_through seq cached).checkpoint := by
    rw [Store.commit_through]
    split
    · exact ⟨max_lt (hr.checkpoint part).1 hb.1, fun r hmem hle =>
        (le_max_iff.1 hle).elim ((hr.checkpoint part).2 r hmem) (hb.2 r hmem)⟩
    · exact hr.checkpoint part
  exact ⟨Keeps.set_disk hs hr rfl (fun d => Or.inl rfl) (Or.inr ⟨rfl, hbehind⟩),
    covers_set_disk hr hb rfl⟩

theorem Keeps.persist (hs : p.Stored) (hr : p.Ready) (doc_ids : List ℕ) :
    Keeps p (p.persist part doc_ids) other := by
  refine Keeps.set_disk hs hr rfl (fun d => ?_) (Or.inl rfl)
  rw [Store.persist]
  dsimp only
  split
  · exact Or.inl rfl
  · exact Or.inr rfl

theorem Keeps.flush_wal (hs : p.Stored) (hr : p.Ready) : Keeps p p.flush_wal other :=
  ⟨⟨hs.linear, hs.sorted, hs.pos, hs.persisted_le, hs.appended_le, hs.disk, hs.kept_docs,
      hs.committed⟩,
    ⟨hr.seq_lt, hr.next_pos, hr.doc_lt, hr.tracked, hr.checkpoint, hr.mem, hr.owned, hr.pending,
      hr.stored, hr.failed⟩,
    fun _ _ h => ⟨h.finished, h.previous⟩,
    fun _ _ _ _ h => ⟨⟨h.last, h.not_finished⟩, h.external_id, h.suffix, h.done, h.stored⟩,
    fun _ h => ⟨h.behind, h.last, h.stores, h.docs⟩⟩

/-- **The document store commits.** -/
theorem Keeps.commit_documents (hs : p.Stored) (hr : p.Ready) :
    Keeps p p.commit_documents other := by
  have hcovers : ∀ {part seq}, p.Covers part seq → p.commit_documents.Covers part seq :=
    fun h k hk => h k (hs.persisted_le.trans hk)
  exact {
    stored := {
      linear := hs.linear
      sorted := hs.sorted
      pos := hs.pos
      persisted_le := le_rfl
      appended_le := hs.appended_le
      disk := fun part => hcovers (hs.disk part)
      kept_docs := fun r hr d doc hup => List.mem_append_right _ (hs.kept_docs r hr d doc hup)
      committed := by
        intro d doc hmem
        rcases List.mem_append.1 hmem with hmem | hmem
        · exact hr.pending d doc hmem
        · obtain ⟨r, hr, hup⟩ := hs.committed d doc hmem
          exact ⟨r, mem_kept_mono hs.persisted_le hr, hup⟩ }
    ready := {
      seq_lt := hr.seq_lt
      next_pos := hr.next_pos
      doc_lt := hr.doc_lt
      tracked := hr.tracked
      checkpoint := hr.checkpoint
      mem := hr.mem
      owned := hr.owned
      pending := fun d doc hmem => absurd hmem List.not_mem_nil
      stored := hr.stored
      failed := hr.failed }
    looks := fun m _ h => ⟨h.finished, h.previous⟩
    applies := fun m r rest _ h => ⟨⟨h.last, h.not_finished⟩, h.external_id, h.suffix, h.done,
      h.stored⟩
    climbs := fun l h => ⟨h.behind, h.last,
      fun hmem part hpart => hcovers (h.stores hmem part hpart),
      fun hmem hdocs r hr hle d doc hup => List.mem_append_right _ (h.docs hmem hdocs r hr hle d
        doc hup)⟩ }

/-! ## Truncating -/

/-- The records of a sorted log up to a number come first. -/
theorem Stored.filter_eq (hs : p.Stored) : ∃ j, (p.wal.filter fun r => r.seq ≤ w) = p.wal.take j ∧
    (p.wal.filter fun r => w < r.seq) = p.wal.drop j ∧ j ≤ p.wal.length := by
  have hsorted := hs.sorted
  generalize p.wal = l at hsorted
  induction l with
  | nil => exact ⟨0, rfl, rfl, le_rfl⟩
  | cons r l ih =>
      obtain ⟨hr, hl⟩ := List.pairwise_cons.1 hsorted
      by_cases hle : r.seq ≤ w
      · obtain ⟨j, htake, hdrop, hj⟩ := ih hl
        refine ⟨j + 1, ?_, ?_, Nat.succ_le_succ hj⟩
        · rw [List.filter_cons_of_pos (by simpa using hle), htake, List.take_succ_cons]
        · rw [List.filter_cons_of_neg (by simpa using hle), hdrop, List.drop_succ_cons]
      · have hall : ∀ r' ∈ r :: l, w < r'.seq := by
          refine List.forall_mem_cons.2 ⟨not_le.1 hle, fun r' hr' => ?_⟩
          have := hr r' hr'
          omega
        refine ⟨0, ?_, ?_, Nat.zero_le _⟩
        · exact List.filter_eq_nil_iff.2 fun r' hr' => by simpa using hall r' hr'
        · exact List.filter_eq_self.2 fun r' hr' => by simpa using hall r' hr'

/-- **The log is truncated** up to a number up to which every store has
persisted what finished. -/
theorem Keeps.truncate (hs : p.Stored) (hr : p.Ready) (hb : p.Behind w)
    (hstores : ∀ part, p.Covers part w)
    (hdocs : ∀ r ∈ p.wal, r.seq ≤ w → ∀ d doc, r.upsert = some (d, doc) → (d, doc) ∈ p.committed) :
    Keeps p (p.truncate_retaining_after w) other := by
  obtain ⟨j, htake, hdrop, hj⟩ := hs.filter_eq (w := w)
  have hlow : ∀ r ∈ p.wal.take j, r.seq ≤ w := by
    rw [← htake]
    exact fun r hr => by simpa using (List.mem_filter.1 hr).2
  have hhigh : ∀ {r}, r ∈ p.wal → w < r.seq → r ∈ p.wal.drop j := by
    intro r hr hlt
    rw [← hdrop]
    exact List.mem_filter.2 ⟨hr, by simpa using hlt⟩
  have hlen : (p.wal.take j).length = j := List.length_take_of_le hj
  have hjle : j ≤ p.appended := by
    -- the records that go have finished, those that failed have not
    by_contra hlt
    obtain ⟨r, hr'⟩ : ∃ r, r ∈ (p.wal.take j).drop p.appended := by
      refine List.exists_mem_of_ne_nil _ (List.ne_nil_of_length_pos ?_)
      rw [List.length_drop, hlen]
      omega
    have hmem : r ∈ p.wal.drop p.appended := by
      rw [List.drop_take] at hr'
      exact List.mem_of_mem_take hr'
    exact hr.failed r hmem (hb.2 r (List.mem_of_mem_drop hmem) (hlow r (List.mem_of_mem_drop hr')))
  have heq : p.truncate_retaining_after w = { p with
      wal := p.wal.drop j
      synced := (p.wal.drop j).length
      truncated := p.truncated ++ p.wal.take j
      appended := p.appended - j
      persisted := p.appended - j } := by
    rw [truncate_retaining_after, htake, hdrop, hlen]
  rw [heq]
  set q : Parts Id Doc n := { p with
      wal := p.wal.drop j
      synced := (p.wal.drop j).length
      truncated := p.truncated ++ p.wal.take j
      appended := p.appended - j
      persisted := p.appended - j } with hq
  have hkept : ∀ k, q.kept k = p.kept (j + k) := by
    intro k
    rw [kept, kept, hq, List.take_add, List.append_assoc]
  have hhistory : q.history = p.history := by
    rw [history, history, hq, List.append_assoc, List.take_append_drop]
  have hsub : ∀ {r}, r ∈ q.wal → r ∈ p.wal := List.mem_of_mem_drop
  have hbehind : ∀ {seq}, p.Behind seq → q.Behind seq :=
    fun hb => ⟨hb.1, fun r hr hle => hb.2 r (hsub hr) hle⟩
  have hmem_take : ∀ {r k}, r ∈ p.wal.take (j + k) → w < r.seq → r ∈ q.wal.take k := by
    intro r k hr hlt
    rw [List.take_add] at hr
    rcases List.mem_append.1 hr with hr | hr
    · have := hlow r hr
      omega
    · exact hr
  have hcovers : ∀ {part seq}, p.Covers part seq → q.Covers part seq := by
    intro part seq h k hk d hd
    have hpk : p.persisted ≤ j + k := by
      have := hs.persisted_le
      change p.appended - j ≤ k at hk
      omega
    rw [hkept]
    rcases Nat.lt_or_ge seq w with hlt | hge
    · exact hstores part (j + k) hpk d fun r hr hgt => hd r (hmem_take hr hgt) (hlt.trans hgt)
    · exact h (j + k) hpk d fun r hr hgt =>
        hd r (hmem_take hr (lt_of_le_of_lt hge hgt)) hgt
  exact {
    stored := {
      linear := hhistory ▸ hs.linear
      sorted := hs.sorted.sublist (List.drop_sublist j _)
      pos := fun r hr => hs.pos r (hsub hr)
      persisted_le := le_rfl
      appended_le := by
        have := hs.appended_le
        change p.appended - j ≤ (p.wal.drop j).length
        rw [List.length_drop]
        omega
      disk := fun part => hcovers (hs.disk part)
      kept_docs := List.forall_mem_append.2 ⟨hs.kept_docs, fun r hr =>
        hdocs r (List.mem_of_mem_take hr) (hlow r hr)⟩
      committed := by
        intro d doc hmem
        obtain ⟨r, hr, hup⟩ := hs.committed d doc hmem
        refine ⟨r, ?_, hup⟩
        rw [hkept]
        refine mem_kept_mono ?_ hr
        have := hs.persisted_le
        change p.persisted ≤ j + (p.appended - j)
        omega }
    ready := {
      seq_lt := fun r hr' => hr.seq_lt r (hsub hr')
      next_pos := hr.next_pos
      doc_lt := by
        rw [hhistory]
        exact hr.doc_lt
      tracked := hr.tracked
      checkpoint := fun part => hbehind (hr.checkpoint part)
      mem := by
        intro k hk part d hd
        rw [hkept]
        change p.appended - j ≤ k at hk
        refine hr.mem (j + k) (by omega) part d fun r hr' hnot => ?_
        refine hd r (hmem_take hr' ?_) hnot
        by_contra hle
        exact hnot (hb.2 r (List.mem_of_mem_take hr') (not_lt.1 hle))
      owned := by
        rw [hhistory]
        exact hr.owned
      pending := by
        intro d doc hmem
        obtain ⟨r, hr, hup⟩ := hr.pending d doc hmem
        refine ⟨r, ?_, hup⟩
        rw [hkept]
        refine mem_kept_mono ?_ hr
        change p.appended ≤ j + (p.appended - j)
        omega
      stored := fun r hr' hfin => hr.stored r (hsub hr') hfin
      failed := by
        intro r hr'
        rw [List.drop_drop, show j + (p.appended - j) = p.appended by omega] at hr'
        exact hr.failed r hr' }
    looks := fun m _ h => ⟨fun r hr hid => h.finished r (hsub hr) hid, by
      rw [hhistory]
      exact h.previous⟩
    applies := by
      intro m r rest _ h
      obtain ⟨before, after, hwal, hlt, hafter⟩ := h.last
      have hgt : w < r.seq := by
        by_contra hle
        exact h.not_finished (hb.2 r h.mem_wal (not_lt.1 hle))
      have hjb : j ≤ before.length := by
        by_contra hlt'
        have hmem : r ∈ p.wal.take j := by
          rw [hwal, List.take_append, List.mem_append]
          obtain ⟨i, hi⟩ := Nat.exists_eq_add_of_lt (not_le.1 hlt')
          rw [show j - before.length = i + 1 by omega, List.take_succ_cons]
          exact Or.inr List.mem_cons_self
        have := hlow r hmem
        omega
      refine ⟨⟨⟨before.drop j, after, ?_, ?_, hafter⟩, h.not_finished⟩, h.external_id, h.suffix,
        h.done, h.stored⟩
      · change p.wal.drop j = _
        rw [hwal, List.drop_append_of_le_length hjb]
      · change (before.drop j).length < p.appended - j
        rw [List.length_drop]
        omega
    climbs := fun l h => ⟨hbehind h.behind, h.last,
      fun hmem part hpart => hcovers (h.stores hmem part hpart),
      fun hmem hdocs' r hr => h.docs hmem hdocs' r (hsub hr)⟩ }

/-! ## Crashes and replays -/

/-- **What a crash leaves** that takes nothing that a store has persisted. -/
theorem Stored.crash (hs : p.Stored) (hk : p.persisted ≤ k) : (p.crash k).Stored := by
  have hkept : ∀ {k'}, (p.wal.take k).length ≤ k' → (p.crash k).kept k' = p.kept k := by
    intro k' hk'
    have htake : (p.wal.take k).take k' = p.wal.take k := List.take_of_length_le hk'
    exact congrArg (p.truncated ++ ·) htake
  have hhistory : p.history = (p.crash k).history ++ p.wal.drop k := by
    change p.truncated ++ p.wal = p.truncated ++ p.wal.take k ++ p.wal.drop k
    rw [List.append_assoc, List.take_append_drop]
  exact {
    linear := (hhistory ▸ hs.linear).left
    sorted := hs.sorted.sublist (List.take_sublist k _)
    pos := fun r hr => hs.pos r (List.mem_of_mem_take hr)
    persisted_le := le_rfl
    appended_le := le_rfl
    disk := by
      intro part k' hk' d hd
      rw [hkept hk']
      have htake : (p.wal.take k).take k' = p.wal.take k := List.take_of_length_le hk'
      exact hs.disk part k hk d (htake ▸ hd)
    kept_docs := hs.kept_docs
    committed := by
      intro d doc hmem
      obtain ⟨r, hr, hup⟩ := hs.committed d doc hmem
      have hall : (p.crash k).kept (p.crash k).persisted = p.kept k := hkept le_rfl
      rw [hall]
      exact ⟨r, mem_kept_mono hk hr, hup⟩ }

theorem le_foldl_max (l : List ℕ) (a : ℕ) : a ≤ l.foldl max a ∧ ∀ x ∈ l, x ≤ l.foldl max a := by
  induction l generalizing a with
  | nil => exact ⟨le_rfl, fun x hx => absurd hx List.not_mem_nil⟩
  | cons b l ih =>
      obtain ⟨hle, hmem⟩ := ih (max a b)
      exact ⟨(le_max_left a b).trans hle, List.forall_mem_cons.2 ⟨(le_max_right a b).trans hle, hmem⟩⟩

/-- The replay starts no higher than the checkpoint of any store. -/
theorem last_wal_seq_le (part : Part n) : p.last_wal_seq part ≤ (p.store part).checkpoint := by
  rcases part with _ | field
  · exact le_rfl
  · rw [last_wal_seq, vector_last_seq]
    set l := (List.finRange n).map fun field => (p.store (.vector field)).checkpoint with hl
    have hmem : (p.store (.vector field)).checkpoint ∈ l :=
      List.mem_map.2 ⟨field, List.mem_finRange field, rfl⟩
    rcases hmin : l.min? with _ | least
    · rw [List.min?_eq_none_iff] at hmin
      rw [hmin] at hmem
      cases hmem
    · exact (List.min?_eq_some_iff.1 hmin).2 _ hmem

/-- **The replay makes a store what the log says**, and stays with it from any
further part of the log that it may have replayed. -/
theorem Stored.replayed_eq (hs : p.Stored) (hwhole : p.persisted = p.wal.length) (part : Part n) :
    p.replayed p.wal part = target p.history := by
  obtain ⟨j, htake, hdrop, -⟩ := hs.filter_eq (w := p.last_wal_seq part)
  have hhistory : p.history = (p.truncated ++ p.wal.take j) ++ p.wal.drop j := by
    rw [List.append_assoc, List.take_append_drop, history]
  funext d
  rw [replayed, hdrop, hhistory, target, patched_append]
  refine patched_congr fun hnone => ?_
  have hno : ∀ r ∈ p.wal.drop j, ¬ r.Touches d := fun r hr =>
    LogRecord.value_eq_none.1 (settled_eq_none.1 hnone r hr)
  have hdisk := (hs.disk part).mono (last_wal_seq_le part) p.wal.length (le_of_eq hwhole) d (by
    intro r hr hlt
    rw [List.take_length] at hr
    refine hno r ?_
    rw [← hdrop]
    exact List.mem_filter.2 ⟨hr, by simpa using hlt⟩)
  rw [hdisk, kept_of_le le_rfl, hhistory, target_append hno]
  rfl

/-- **`recover` opens the engine** with every record finished. -/
theorem Stored.recover (hs : p.Stored) (hwhole : p.persisted = p.wal.length)
    (hbound : p.recover.next_seq < 2 ^ 64) :
    p.recover.Stored ∧ p.recover.Ready ∧ ∀ r ∈ p.recover.wal, Finished p.recover.applied r.seq := by
  set floor := max (p.store .lexical).checkpoint p.highest_wal_seq with hfloor
  set last := (p.wal.map LogRecord.seq).foldl max floor with hlast
  obtain ⟨hfloor_le, hseqs⟩ := le_foldl_max (p.wal.map LogRecord.seq) floor
  have hseq : ∀ r ∈ p.wal, r.seq ≤ last := fun r hr => hseqs _ (List.mem_map_of_mem hr)
  have hcheckpoint : ∀ part, (p.store part).checkpoint ≤ last := by
    intro part
    refine le_trans ?_ hfloor_le
    rcases part with _ | field
    · exact le_max_left _ _
    · refine le_trans ?_ (le_max_right _ _)
      exact (le_foldl_max _ 0).2 _ (List.mem_map.2 ⟨field, List.mem_finRange field, rfl⟩)
  change last + 1 < 2 ^ 64 at hbound
  obtain ⟨htracked, hfin⟩ := (tracked_raise_to (by omega) : Tracked (AppliedSeqs.raise_to (AppliedSeqs.start 0) last) _ ∧ _)
  have hfinished : ∀ r ∈ p.wal, Finished p.recover.applied r.seq := fun r hr =>
    (hfin r.seq).2 (hseq r hr)
  have happended : p.appended = p.wal.length :=
    le_antisymm hs.appended_le (hwhole ▸ hs.persisted_le)
  have hpending : ∀ {d doc}, (d, doc) ∈ p.recover.pending ↔
      ∃ r ∈ p.wal, r.upsert = some (d, doc) := by
    intro d doc
    exact List.mem_reverse.trans List.mem_filterMap
  have hmem : ∀ part, (p.recover.store part).mem = target p.history := fun part =>
    hs.replayed_eq hwhole part
  exact ⟨⟨hs.linear, hs.sorted, hs.pos, hs.persisted_le, hs.appended_le, hs.disk, hs.kept_docs,
      hs.committed⟩, {
    seq_lt := fun r hr => Nat.lt_succ_of_le (hseq r hr)
    next_pos := Nat.succ_pos _
    doc_lt := by
      intro r hr d ht
      obtain ⟨r', hr', -, doc, hup⟩ := hs.linear.owner hr ht
      refine Nat.lt_succ_of_le ((le_foldl_max _ 0).2 d (List.mem_map.2 ⟨(d, doc), ?_, rfl⟩))
      rcases List.mem_append.1 hr' with hr' | hr'
      · exact List.mem_append_right _ (hs.kept_docs r' hr' d doc hup)
      · exact List.mem_append_left _ (List.mem_filterMap.2 ⟨r', hr', hup⟩)
    tracked := htracked
    checkpoint := fun part => ⟨Nat.lt_succ_of_le (hcheckpoint part), fun r hr _ => hfinished r hr⟩
    mem := by
      intro k hk part d _
      rw [hmem]
      have hall : p.recover.kept k = p.history := kept_of_le (happended ▸ hk)
      rw [hall]
    owned := by
      intro part d id doc hown
      rw [hmem] at hown
      exact exists_of_target hown
    pending := by
      intro d doc hdoc
      obtain ⟨r, hr, hup⟩ := hpending.1 hdoc
      refine ⟨r, ?_, hup⟩
      have hall : p.recover.kept p.recover.appended = p.history :=
        kept_of_le (le_of_eq happended.symm)
      rw [hall]
      exact List.mem_append_right _ hr
    stored := fun r hr _ d doc hup => List.mem_append_left _ (hpending.2 ⟨r, hr, hup⟩)
    failed := by
      intro r hr
      change r ∈ p.wal.drop p.appended at hr
      rw [happended, List.drop_length] at hr
      cases hr }, hfinished⟩

/-- A `recover` that fails leaves storage no worse. -/
theorem Stored.recover_fails (hs : p.Stored) (hwhole : p.persisted = p.wal.length) (count : ℕ)
    (doc_ids : List ℕ) : (p.recover_fails count doc_ids).Stored := by
  have hsame : ∀ part, ((p.recover_fails count doc_ids).store part).checkpoint =
      (p.store part).checkpoint := by
    intro part
    by_cases hpart : part = .lexical
    · subst hpart
      exact (congrArg Store.checkpoint (Function.update_self Part.lexical _ p.store)).trans rfl
    · exact congrArg Store.checkpoint (Function.update_of_ne hpart _ _)
  refine ⟨hs.linear, hs.sorted, hs.pos, hs.persisted_le, hs.appended_le, fun part => ?_,
    hs.kept_docs, hs.committed⟩
  rw [hsame]
  intro k hk d hd
  refine Eq.trans ?_ (hs.disk part k hk d hd)
  by_cases hpart : part = .lexical
  · subst hpart
    have hwal : p.wal.take k = p.wal := List.take_of_length_le (hwhole ▸ hk)
    have hnone : settled LogRecord.value ((p.wal.take count).filter fun r =>
        p.last_wal_seq .lexical < r.seq) d = none := by
      refine settled_eq_none.2 fun r hr => LogRecord.value_eq_none.2 ?_
      obtain ⟨hmem, hlt⟩ := List.mem_filter.1 hr
      have hgt : p.last_wal_seq .lexical < r.seq := by simpa using hlt
      refine hd r ?_ hgt
      change r ∈ p.wal.take k
      rw [hwal]
      exact List.mem_of_mem_take hmem
    have hreplayed : p.replayed (p.wal.take count) .lexical d = (p.store .lexical).disk d := by
      rw [replayed, patched_apply, hnone]
      rfl
    have hnew : ((p.recover_fails count doc_ids).store .lexical).disk d =
        if d ∈ doc_ids then p.replayed (p.wal.take count) .lexical d
        else (p.store .lexical).disk d :=
      congrArg (fun store => store.disk d) (Function.update_self Part.lexical _ p.store)
    rw [hnew, hreplayed]
    split <;> rfl
  · exact congrArg (fun store => store.disk d) (Function.update_of_ne hpart _ p.store)

end Parts

end Engine

end Laurus
