import Laurus.Store.Helpers.LogSync
import Laurus.Store.WalRefinement

/-!
# The loss window of the log

`wal_loss_window` says what a run of appends, flushes, deferrals and
truncations may leave without a sync. After an append that was acknowledged
it is what the policy admits; a flush leaves nothing, or fails and keeps the
counts; and the end of a deferral syncs nothing, so what was appended under
it waits for a flush or for the next append. A log whose file ends in a part
of a frame appends nothing more, and a reopen finds what was acknowledged.
Left out are truncations that fail to sync what their handle counts: the
handle is gone by then, and its counts with it. Where storage does all it is
asked, each call does to the log what it does in `DocumentLog`.
-/

namespace Laurus

variable {Document : Type} {codec : WalCodec Document}

namespace SyncedLog

variable {s s' : SyncedLog Document} {base pending extra : List (LogRecord Document)}
variable {record : LogRecord Document}

/-- What the policy admits after an append. -/
structure Window (codec : WalCodec Document) (s : SyncedLog Document) : Prop where
  per_record : s.sync_policy = .PerRecord → s.sync_deferral_depth = 0 → s.unsynced codec = []
  group : ∀ {max_records max_bytes : UInt64} {max_interval : Option ℕ},
    s.sync_policy = .Group max_records max_bytes max_interval →
      (s.unsynced codec).length < max 1 max_records.toNat ∧
        s.unsynced_bytes codec < max 1 max_bytes.toNat ∧
        (max_interval = some 0 → s.unsynced codec = [])
  /-- And the name of the file is synced. -/
  named : s.wal_name_synced = true

theorem window_of_synced (h : s.unsynced codec = []) (hnamed : s.wal_name_synced = true) :
    Window codec s where
  per_record _ _ := h
  group _ := by
    rw [unsynced_bytes, h]
    simp
  named := hnamed

/-- What is not flushed at once is below the thresholds. -/
theorem window_of_kept (hcodec : codec.Lawful) (h : Counts codec s base pending [])
    (hopen : s.log.wal_writer = true) (hkept : s.flush_now = false) : Window codec s := by
  have hunsynced := h.unsynced_eq
  rw [List.append_nil] at hunsynced
  refine ⟨fun hpolicy hdepth => ?_, fun {max_records max_bytes max_interval} hpolicy => ?_,
    h.named hopen⟩
  · rw [flush_now, hpolicy, hdepth] at hkept
    cases hkept
  · rw [flush_now, hpolicy] at hkept
    simp only [batch_ready, hopen, Bool.true_and, Bool.or_eq_false_iff, decide_eq_false_iff_not,
      Nat.not_le, beq_eq_false_iff_ne] at hkept
    obtain ⟨⟨hinterval, hrecords⟩, hbytes⟩ := hkept
    obtain ⟨frames, hcounts⟩ := h.counts hopen
    obtain ⟨hfew, hsmall⟩ := hcounts.below hcodec hrecords hbytes
    rw [unsynced_bytes, hunsynced, hcounts.size]
    grind

/-! ## Appends -/

/-- What an append leaves that was acknowledged. -/
structure Acknowledged (codec : WalCodec Document) (s s' : SyncedLog Document)
    (base pending : List (LogRecord Document)) (record : LogRecord Document) : Prop where
  counts : ∃ base' pending', Counts codec s' base' pending' [] ∧ base <+: base' ∧
    base' ++ pending' = base ++ pending ++ [record]
  window : Window codec s'
  sync_policy : s'.sync_policy = s.sync_policy
  depth : s'.sync_deferral_depth = s.sync_deferral_depth

/-- What an append leaves that was refused. -/
structure Refused (codec : WalCodec Document) (s s' : SyncedLog Document)
    (base pending : List (LogRecord Document)) : Prop where
  counts : ∃ pending' extra', Counts codec s' base pending' extra' ∧ pending <+: pending'
  sync_policy : s'.sync_policy = s.sync_policy
  depth : s'.sync_deferral_depth = s.sync_deferral_depth

/-- **What `write_record` leaves.** -/
theorem write_record_cases (hcodec : codec.Lawful) (h : Counts codec s base pending [])
    (htorn : s.log.torn = false) (hopen : s.log.wal_writer = true)
    (record : LogRecord Document) (io : AppendIo) :
    (∃ s', s.write_record codec record io = (.ok (), s') ∧
      Acknowledged codec s s' base pending record) ∨
    ∃ e s', s.write_record codec record io = (.error e, s') ∧
      Refused codec s s' base pending := by
  rw [write_record]
  rcases append_record_bytes_cases hcodec h htorn hopen record io with
    ⟨e, extra, s₁, heq, hcounts, hpolicy, hdepth⟩ |
    ⟨s₁, heq, hcounts, hopen₁, htorn₁, hpolicy, hdepth⟩
  · rw [heq]
    exact Or.inr ⟨e, s₁, rfl, ⟨_, _, hcounts, List.prefix_rfl⟩, hpolicy, hdepth⟩
  rw [heq]
  dsimp only
  rcases hnow : s₁.flush_now with _ | _
  · rw [if_neg Bool.false_ne_true]
    exact Or.inl ⟨s₁, rfl, ⟨base, _, hcounts, List.prefix_rfl, (List.append_assoc _ _ _).symm⟩,
      window_of_kept hcodec hcounts hopen₁ hnow, hpolicy, hdepth⟩
  · rw [if_pos rfl]
    rcases flush_writer_cases hcounts io.sync with
      ⟨e, hflush⟩ | ⟨s₂, base', extra', hflush, hcounts₂, -, hall, hlog, hpolicy₂, hdepth₂, hnamed⟩
    · rw [hflush]
      exact Or.inr ⟨e, s₁, rfl, ⟨_, _, hcounts, List.prefix_append _ _⟩, hpolicy, hdepth⟩
    · rw [hflush]
      obtain ⟨rfl, rfl⟩ := hall rfl
      have hsynced : s₂.unsynced codec = [] := hcounts₂.unsynced_eq
      refine Or.inl ⟨s₂, rfl, ⟨_, _, hcounts₂, List.prefix_append _ _, ?_⟩,
        window_of_synced hsynced (hnamed.trans (hcounts.named hopen₁)), hpolicy₂.trans hpolicy,
        hdepth₂.trans hdepth⟩
      rw [List.append_nil, List.append_assoc]

/-! ## Calls -/

/-- A call on an open log, and what storage does in it. -/
inductive SyncCall (Document : Type)
  | append_put (external_id : String) (doc : Document) (replaces : List UInt64) (io : AppendIo)
  | append_delete (doc_ids : List UInt64) (external_id : String) (io : AppendIo)
  | flush_wal (fault : Option LaurusError)
  | defer_sync
  /-- A deferral scope ends. -/
  | end_deferral
  | truncate_retaining_after (retain_after_seq : UInt64) (io : TruncateIo)

/-- What a call returns. -/
inductive SyncReturn
  | put (doc_id seq : UInt64)
  | deleted (seq : UInt64)
  | done
  | failed (e : LaurusError)
  deriving DecidableEq

/-- What a call that returns nothing returns. -/
def SyncReturn.of_unit : Except LaurusError Unit → SyncReturn
  | .ok () => .done
  | .error e => .failed e

/-- What an insertion returns. -/
def SyncReturn.of_put : Except LaurusError (UInt64 × UInt64) → SyncReturn
  | .ok (doc_id, seq) => .put doc_id seq
  | .error e => .failed e

/-- What a deletion returns. -/
def SyncReturn.of_delete : Except LaurusError UInt64 → SyncReturn
  | .ok seq => .deleted seq
  | .error e => .failed e

/-- What a call does. -/
def call (codec : WalCodec Document) (s : SyncedLog Document) :
    SyncCall Document → SyncReturn × SyncedLog Document
  | .append_put external_id doc replaces io =>
    (s.append_put codec external_id doc replaces io).map .of_put id
  | .append_delete doc_ids external_id io =>
    (s.append_delete codec doc_ids external_id io).map .of_delete id
  | .flush_wal fault => (s.flush_wal fault).map .of_unit id
  | .defer_sync => (.done, s.defer_sync)
  | .end_deferral => (.done, s.end_deferral)
  | .truncate_retaining_after retain_after_seq io =>
    (s.truncate_retaining_after codec retain_after_seq io).map .of_unit id

/-- A call is an append. -/
def SyncCall.Appends : SyncCall Document → Prop
  | .append_put .. | .append_delete .. => True
  | _ => False

/-- The record that a call acknowledged. -/
def acknowledged : SyncCall Document → SyncReturn → Option (LogRecord Document)
  | .append_put external_id doc replaces _, .put doc_id seq =>
    some { seq, entry := .Upsert doc_id external_id doc replaces }
  | .append_delete doc_ids external_id _, .deleted seq =>
    some { seq, entry := .Delete doc_ids external_id }
  | _, _ => none

/-- What a truncation keeps of the records that were acknowledged: those
above its number, or none where it covers every number given. -/
def retained (s : SyncedLog Document) (retain_after_seq : UInt64)
    (acked : List (LogRecord Document)) : List (LogRecord Document) :=
  if s.log.last_seq ≤ retain_after_seq then []
  else acked.filter fun record => retain_after_seq < record.seq

/-- The records that were acknowledged, after a call. -/
def acknowledge (codec : WalCodec Document) (s : SyncedLog Document)
    (acked : List (LogRecord Document)) : SyncCall Document → List (LogRecord Document)
  | .truncate_retaining_after retain_after_seq _ => s.retained retain_after_seq acked
  | c => acked ++ (acknowledged c (s.call codec c).1).toList

/-- The steps of a log, and of the records it acknowledged. -/
def AckStep (codec : WalCodec Document) :
    Step (SyncedLog Document × List (LogRecord Document)) (SyncCall Document) :=
  fun p c q => q = ((p.1.call codec c).2, acknowledge codec p.1 p.2 c)

/-- A truncation does not fail to sync what its handle counts. -/
def TakesSynced (p : SyncedLog Document × List (LogRecord Document)) :
    SyncCall Document → Prop
  | .truncate_retaining_after _ io =>
    p.1.log.wal_writer = true → p.1.state.dirty = true → io.sync = none
  | _ => True

theorem acknowledge_append {c : SyncCall Document} (hc : c.Appends)
    (acked : List (LogRecord Document)) :
    acknowledge codec s acked c = acked ++ (acknowledged c (s.call codec c).1).toList := by
  rcases c with _ | _ | _ | _ | _ | _
  · rfl
  · rfl
  all_goals exact hc.elim

theorem Counts.renumber (h : Counts codec s base pending extra) (next_doc_id next_seq : UInt64) :
    Counts codec { s with log := { s.log with next_doc_id, next_seq } } base pending extra where
  holds := h.holds.of_same ⟨rfl, rfl, rfl, rfl, rfl⟩
  synced_le := h.synced_le
  synced := h.synced
  shape := h.shape
  extra := h.extra
  counts := h.counts
  named := h.named
  closed := h.closed

/-- **An append** is acknowledged, or refused. -/
theorem append_cases (hcodec : codec.Lawful) (h : Counts codec s base pending extra)
    {c : SyncCall Document} (hc : c.Appends) :
    (∃ record, acknowledged c (s.call codec c).1 = some record ∧ extra = [] ∧
      Acknowledged codec s (s.call codec c).2 base pending record) ∨
    ∃ e, (s.call codec c).1 = .failed e ∧ acknowledged c (s.call codec c).1 = none ∧
      Refused codec s (s.call codec c).2 base pending := by
  have hensure : ∀ io, Ready codec s (s.ensure_writer codec io).2 base pending extra
      (s.ensure_writer codec io).1 := ensure_writer_ready hcodec h
  rcases c with ⟨external_id, doc, replaces, io⟩ | ⟨doc_ids, external_id, io⟩ | _ | _ | _ | _
  · rw [call, append_put]
    have hready := hensure io
    rcases hout : s.ensure_writer codec io with ⟨e | _, s₁⟩ <;> rw [hout] at hready
    · exact Or.inr ⟨e, rfl, rfl, ⟨pending, extra, hready.counts, List.prefix_rfl⟩,
        hready.sync_policy, hready.depth⟩
    · obtain ⟨htorn, hopen⟩ := hready.ready rfl
      obtain rfl := hready.counts.extra htorn
      dsimp only
      have hnumbered := hready.counts.renumber (s₁.log.next_doc_id + 1) (s₁.log.next_seq + 1)
      rcases write_record_cases hcodec hnumbered htorn hopen
        ⟨s₁.log.next_seq, .Upsert s₁.log.next_doc_id external_id doc replaces⟩ io with
        ⟨s₂, heq, hack⟩ | ⟨e, s₂, heq, href⟩
      · rw [heq]
        exact Or.inl ⟨_, rfl, rfl, hack.counts, hack.window,
          hack.sync_policy.trans hready.sync_policy, hack.depth.trans hready.depth⟩
      · rw [heq]
        exact Or.inr ⟨e, rfl, rfl, href.counts, href.sync_policy.trans hready.sync_policy,
          href.depth.trans hready.depth⟩
  · rw [call, append_delete]
    have hready := hensure io
    rcases hout : s.ensure_writer codec io with ⟨e | _, s₁⟩ <;> rw [hout] at hready
    · exact Or.inr ⟨e, rfl, rfl, ⟨pending, extra, hready.counts, List.prefix_rfl⟩,
        hready.sync_policy, hready.depth⟩
    · obtain ⟨htorn, hopen⟩ := hready.ready rfl
      obtain rfl := hready.counts.extra htorn
      dsimp only
      have hnumbered := hready.counts.renumber s₁.log.next_doc_id (s₁.log.next_seq + 1)
      rcases write_record_cases hcodec hnumbered htorn hopen
        ⟨s₁.log.next_seq, .Delete doc_ids external_id⟩ io with
        ⟨s₂, heq, hack⟩ | ⟨e, s₂, heq, href⟩
      · rw [heq]
        exact Or.inl ⟨_, rfl, rfl, hack.counts, hack.window,
          hack.sync_policy.trans hready.sync_policy, hack.depth.trans hready.depth⟩
      · rw [heq]
        exact Or.inr ⟨e, rfl, rfl, href.counts, href.sync_policy.trans hready.sync_policy,
          href.depth.trans hready.depth⟩
  all_goals exact hc.elim

/-! ## Truncations -/

/-- What is left once the handle is taken. -/
structure Taken (codec : WalCodec Document) (s s' : SyncedLog Document)
    (base pending : List (LogRecord Document)) : Prop where
  counts : ∃ base' extra', Counts codec s' base' [] extra' ∧ base ++ pending <+: base'
  closed : s'.log.wal_writer = false
  next_seq : s'.log.next_seq = s.log.next_seq
  torn : s'.log.torn = s.log.torn
  sync_policy : s'.sync_policy = s.sync_policy
  depth : s'.sync_deferral_depth = s.sync_deferral_depth

/-- **What a truncation does to the handle**, where it does not lose what
that counts. -/
theorem close_writer_taken (h : Counts codec s base pending extra) {io : TruncateIo}
    (hsynced : s.log.wal_writer = true → s.state.dirty = true → io.sync = none) :
    Taken codec s (s.close_writer io).2 base pending := by
  have hwhole : ∀ len, Taken codec s
      ({ s with synced := s.log.contents.length }.drop_writer len) base pending := by
    intro len
    obtain ⟨extra', hdropped⟩ := h.sync.drop len
    exact ⟨⟨_, extra', hdropped, List.prefix_append _ _⟩, rfl, rfl, rfl, rfl, rfl⟩
  rw [close_writer]
  rcases hopen : s.log.wal_writer with _ | _
  · rw [if_neg Bool.false_ne_true]
    obtain rfl := h.closed hopen
    exact ⟨⟨base, extra, h, by rw [List.append_nil]⟩, hopen, rfl, rfl, rfl, rfl⟩
  rcases hdirty : s.state.dirty with _ | _
  · obtain rfl := h.clean (by simp [hdirty])
    rcases io.close with _ | ⟨e, len⟩
    · exact hwhole _
    · obtain ⟨extra', hdropped⟩ := h.drop len
      exact ⟨⟨base, extra', hdropped, by rw [List.append_nil]⟩, rfl, rfl, rfl, rfl, rfl⟩
  · rw [hsynced hopen hdirty]
    rcases io.close with _ | ⟨e, len⟩
    · exact hwhole _
    · exact hwhole len

/-- **A truncation** keeps the records above its number, and syncs them. -/
theorem truncate_keeps (hcodec : codec.Lawful) (h : Counts codec s base pending extra)
    (retain_after_seq : UInt64) {io : TruncateIo}
    (hsynced : s.log.wal_writer = true → s.state.dirty = true → io.sync = none)
    {acked : List (LogRecord Document)} (hacked : acked.Sublist (base ++ pending)) :
    ∃ base' extra', Counts codec (s.truncate_retaining_after codec retain_after_seq io).2
        base' [] extra' ∧
      (s.retained retain_after_seq acked).Sublist base' ∧
      (s.truncate_retaining_after codec retain_after_seq io).2.sync_policy = s.sync_policy ∧
      (s.truncate_retaining_after codec retain_after_seq io).2.sync_deferral_depth =
        s.sync_deferral_depth := by
  have htaken := close_writer_taken h hsynced
  rw [truncate_retaining_after, retained]
  rcases hout : s.close_writer io with ⟨result, s₁⟩
  rw [hout] at htaken
  obtain ⟨base', extra', hcounts, hbase⟩ := htaken.counts
  have hlast : s₁.log.last_seq = s.log.last_seq := by
    rw [DocumentLog.last_seq, DocumentLog.last_seq, htaken.next_seq]
  have hsub := hacked.trans hbase.sublist
  have hkept : (if s.log.last_seq ≤ retain_after_seq then []
      else acked.filter fun record => decide (retain_after_seq < record.seq)).Sublist base' := by
    split
    · exact List.nil_sublist _
    · exact List.filter_sublist.trans hsub
  rcases result with e | _
  · exact ⟨base', extra', hcounts, hkept, htaken.sync_policy, htaken.depth⟩
  dsimp only
  rw [← hlast] at hkept ⊢
  by_cases hfast : s₁.log.last_seq ≤ retain_after_seq
  · rw [if_pos hfast, if_pos hfast]
    have hempty : Counts codec { s₁ with
        log := { s₁.log with wal_file := some [] }, synced := 0 } [] [] [] :=
      counts_closed_v4 (DocumentLog.holds_nil rfl htaken.closed) htaken.closed rfl
    rcases io.create with _ | e
    · rcases io.created with _ | e
      · exact ⟨[], [], hempty, List.nil_sublist _, htaken.sync_policy, htaken.depth⟩
      · exact ⟨[], [], hempty, List.nil_sublist _, htaken.sync_policy, htaken.depth⟩
    · exact ⟨base', extra', hcounts, List.nil_sublist _, htaken.sync_policy, htaken.depth⟩
  · rw [if_neg hfast] at hkept
    rw [if_neg hfast, if_neg hfast]
    rcases io.read with _ | e
    · dsimp only
      obtain ⟨cut_at, hread⟩ := hcounts.holds.read_wal
      have hsame := s₁.log.recount_same codec
      rw [hread]
      dsimp only
      have hrecount : Counts codec { s₁ with log := s₁.log.recount codec } base' [] extra' :=
        hcounts.of_closed htaken.closed hsame rfl
      rcases rewrite_wal_reached hcodec hrecount (hsame.wal_writer.trans htaken.closed)
        ((base' ++ [] ++ extra').filter fun record => retain_after_seq < record.seq) io.rewrite with
        ⟨-, hreached⟩ | ⟨hreached, -⟩
      · exact ⟨base', extra', hreached.counts, hkept, hreached.sync_policy.trans htaken.sync_policy,
          hreached.depth.trans htaken.depth⟩
      · refine ⟨_, [], hreached.counts, ?_, hreached.sync_policy.trans htaken.sync_policy,
          hreached.depth.trans htaken.depth⟩
        grind
    grind [Taken.sync_policy, Taken.depth]

/-! ## Runs -/

/-- The records that were acknowledged are in the log, and are synced where
no deferral was ever in force. -/
structure Keeps (codec : WalCodec Document) (sync_policy : WalSyncPolicy) (free : Prop)
    (s : SyncedLog Document) (acked : List (LogRecord Document)) : Prop where
  counts : ∃ base pending extra, Counts codec s base pending extra ∧
    acked.Sublist (base ++ pending) ∧ (free → sync_policy = .PerRecord → acked.Sublist base)
  sync_policy : s.sync_policy = sync_policy
  depth : free → s.sync_deferral_depth = 0

variable {sync_policy : WalSyncPolicy} {free : Prop} {acked acked' : List (LogRecord Document)}
variable {c : SyncCall Document} {calls : List (SyncCall Document)}

/-- **One call keeps them.** -/
theorem Keeps.step (hcodec : codec.Lawful) (h : Keeps codec sync_policy free s acked)
    (hguard : TakesSynced (s, acked) c) (hfree : free → c ≠ .defer_sync) :
    Keeps codec sync_policy free (s.call codec c).2 (acknowledge codec s acked c) := by
  obtain ⟨base, pending, extra, hcounts, hacked, hsynced⟩ := h.counts
  by_cases hc : c.Appends
  · rw [acknowledge_append hc]
    rcases append_cases hcodec hcounts hc with ⟨record, hrecord, -, hack⟩ | ⟨e, -, hnone, href⟩
    · rw [hrecord]
      obtain ⟨base', pending', hcounts', hbase, hall⟩ := hack.counts
      refine ⟨⟨base', pending', [], hcounts', ?_, fun hf hper => ?_⟩,
        hack.sync_policy.trans h.sync_policy, fun hf => hack.depth.trans (h.depth hf)⟩
      · grind
      · -- with no deferral in force the append synced all there is
        have hnone := hack.window.per_record ((hack.sync_policy.trans h.sync_policy).trans hper)
          (hack.depth.trans (h.depth hf))
        rw [hcounts'.unsynced_eq, List.append_nil] at hnone
        grind
    · rw [hnone, Option.toList_none, List.append_nil]
      obtain ⟨pending', extra', hcounts', hpending⟩ := href.counts
      refine ⟨⟨base, pending', extra', hcounts', ?_, hsynced⟩,
        href.sync_policy.trans h.sync_policy, fun hf => href.depth.trans (h.depth hf)⟩
      exact hacked.trans ((List.Sublist.refl _).append hpending.sublist)
  rcases c with _ | _ | fault | _ | _ | ⟨retain_after_seq, io⟩
  · exact absurd trivial hc
  · exact absurd trivial hc
  · -- a flush
    have hstay : acknowledge codec s acked (.flush_wal fault) = acked := List.append_nil _
    rw [hstay, call, flush_wal]
    rcases flush_writer_cases hcounts fault with
      ⟨e, heq⟩ | ⟨s', base', extra', heq, hcounts', hbase, -, -, hpolicy, hdepth, -⟩
    · rw [heq]
      exact h
    · rw [heq]
      have hsub := hacked.trans hbase.sublist
      exact ⟨⟨base', [], extra', hcounts', by rwa [List.append_nil], fun _ _ => hsub⟩,
        hpolicy.trans h.sync_policy, fun hf => hdepth.trans (h.depth hf)⟩
  · have hstay : acknowledge codec s acked .defer_sync = acked := List.append_nil _
    rw [hstay]
    exact ⟨⟨base, pending, extra, ⟨hcounts.holds, hcounts.synced_le, hcounts.synced,
      hcounts.shape, hcounts.extra, hcounts.counts, hcounts.named, hcounts.closed⟩, hacked,
      hsynced⟩, h.sync_policy, fun hf => absurd rfl (hfree hf)⟩
  · have hstay : acknowledge codec s acked .end_deferral = acked := List.append_nil _
    rw [hstay]
    refine ⟨⟨base, pending, extra, ⟨hcounts.holds, hcounts.synced_le, hcounts.synced,
      hcounts.shape, hcounts.extra, hcounts.counts, hcounts.named, hcounts.closed⟩, hacked,
      hsynced⟩, h.sync_policy, fun hf => ?_⟩
    show s.sync_deferral_depth - 1 = 0
    rw [h.depth hf]
  · obtain ⟨base', extra', hcounts', hkept, hpolicy, hdepth⟩ :=
      truncate_keeps hcodec hcounts retain_after_seq hguard hacked
    exact ⟨⟨base', [], extra', hcounts', by rwa [List.append_nil], fun _ _ => hkept⟩,
      hpolicy.trans h.sync_policy, fun hf => hdepth.trans (h.depth hf)⟩

/-- **Runs keep them.** -/
theorem Keeps.run (hcodec : codec.Lawful)
    {p q : SyncedLog Document × List (LogRecord Document)}
    (hrun : Run (Step.guarded TakesSynced (AckStep codec)) p calls q)
    (hfree : free → .defer_sync ∉ calls) (h : Keeps codec sync_policy free p.1 p.2) :
    Keeps codec sync_policy free q.1 q.2 := by
  induction hrun with
  | nil p => exact h
  | @cons p p' q c calls hstep _ ih =>
      obtain ⟨hguard, rfl⟩ := hstep
      grind [step]

theorem keeps_opened {wal_path : String} {wal_file : Option Bytes} {storage : DocStorage}
    {checkpoint : UInt64} {records : List (LogRecord Document)} {log : DocumentLog Document}
    (hopen : ((DocumentLog.new wal_path wal_file storage).advance_seq_past checkpoint).read_all
      codec = (.ok records, log)) :
    Keeps codec sync_policy free (opened sync_policy log) records := by
  obtain ⟨hcontents, hwriter, -⟩ := @DocumentLog.opening_eq Document wal_path wal_file storage
    checkpoint
  set opening : DocumentLog Document :=
    (DocumentLog.new wal_path wal_file storage).advance_seq_past checkpoint
  have hknown : ∀ version, detect_existing_format opening.contents ≠ .Unknown version := by
    intro version hversion
    rw [DocumentLog.read_all_unknown codec hversion] at hopen
    cases hopen
  have hread := DocumentLog.read_all_eq codec hwriter hknown
  have hholds := DocumentLog.read_all_holds codec hwriter hknown
  rw [hread] at hopen
  obtain ⟨hrecords, hlog⟩ := Prod.mk.inj hopen
  rw [hlog, Except.ok.inj hrecords] at hholds
  have hclosed : log.wal_writer = false := by
    rw [← hlog]
    exact (opening.recount_same codec).wal_writer.trans hwriter
  exact ⟨⟨records, [], [], counts_closed_v4 hholds hclosed rfl, by rw [List.append_nil],
    fun _ _ => List.Sublist.refl _⟩, rfl, fun _ => rfl⟩

/-! ## Torn files -/

/-- The file ends in a part of a frame. -/
def EndsInPart (codec : WalCodec Document) (s : SyncedLog Document) : Prop :=
  detect_existing_format s.log.contents = .V4 ∧
    codec.valid_len s.log.contents < s.log.contents.length

theorem torn_read_wal (log : DocumentLog Document) :
    (log.read_wal codec).2.torn = log.torn := by
  unfold DocumentLog.read_wal
  split
  · exact (DocumentLog.set_next_doc_id_same _ _).torn
  · dsimp only
    split
    · rfl
    · exact ((DocumentLog.raise_next_seq_same log _).trans
        ((DocumentLog.raise_next_doc_id_same _ _).trans
          (DocumentLog.set_next_doc_id_same _ _))).torn

theorem torn_rewrite_wal (s : SyncedLog Document) (records : List (LogRecord Document))
    (fault : Option RewriteFault) :
    (s.rewrite_wal codec records fault).2.log.torn = s.log.torn := by
  unfold rewrite_wal DocumentLog.rewrite_wal
  rcases records.mapM codec.record_frame with e | frames
  · rcases fault with _ | _ | _ | _ <;> rfl
  · rcases fault with _ | _ | _ | _ <;> rfl

theorem torn_close_writer (s : SyncedLog Document) (io : TruncateIo) :
    (s.close_writer io).2.log.torn = s.log.torn := by
  unfold close_writer
  split
  · split <;> rfl
  · rfl

theorem torn_truncate (s : SyncedLog Document) (retain_after_seq : UInt64) (io : TruncateIo) :
    (s.truncate_retaining_after codec retain_after_seq io).2.log.torn = s.log.torn := by
  have htaken := s.torn_close_writer io
  rw [truncate_retaining_after]
  rcases hout : s.close_writer io with ⟨e | _, s₁⟩ <;> rw [hout] at htaken
  · exact htaken
  dsimp only
  split
  · grind
  · rcases io.read with _ | e
    · have hread := @torn_read_wal _ codec s₁.log
      dsimp only
      rcases hlog : s₁.log.read_wal codec with ⟨e | ⟨records, cut_at⟩, log⟩ <;> rw [hlog] at hread
      · exact hread.trans htaken
      · exact (torn_rewrite_wal _ _ _).trans (hread.trans htaken)
    · exact htaken

/-- **A torn log appends nothing**, and stays torn. -/
theorem torn_call (htorn : s.log.torn = true) (c : SyncCall Document) :
    (s.call codec c).2.log.torn = true ∧ (c.Appends → ∃ e, (s.call codec c).1 = .failed e) := by
  have hensure : ∀ io, ∃ e, s.ensure_writer codec io = (.error e, s) := fun io =>
    ⟨_, by rw [ensure_writer, if_pos htorn]⟩
  rcases c with ⟨external_id, doc, replaces, io⟩ | ⟨doc_ids, external_id, io⟩ | fault | _ | _ |
    ⟨retain_after_seq, io⟩
  · obtain ⟨e, heq⟩ := hensure io
    rw [call, append_put, heq]
    exact ⟨htorn, fun _ => ⟨e, rfl⟩⟩
  · obtain ⟨e, heq⟩ := hensure io
    rw [call, append_delete, heq]
    exact ⟨htorn, fun _ => ⟨e, rfl⟩⟩
  · refine ⟨?_, fun hc => hc.elim⟩
    unfold call flush_wal flush_writer
    grind
  · exact ⟨htorn, fun hc => hc.elim⟩
  · exact ⟨htorn, fun hc => hc.elim⟩
  · exact ⟨(torn_truncate s retain_after_seq io).trans htorn, fun hc => hc.elim⟩

theorem torn_run {p q : SyncedLog Document × List (LogRecord Document)}
    (hrun : Run (AckStep codec) p calls q) (htorn : p.1.log.torn = true) :
    q.1.log.torn = true := by
  refine Run.invariant (fun p => p.1.log.torn = true) (fun {p c q} hp hstep => ?_) hrun htorn
  rw [hstep]
  exact (torn_call hp c).1

/-! ## The loss window -/

/-- **The loss window** of a log that was opened under `sync_policy`, ran
`calls`, and acknowledged `acked`. -/
structure LossWindow (codec : WalCodec Document) (sync_policy : WalSyncPolicy)
    (calls : List (SyncCall Document)) (s : SyncedLog Document)
    (acked : List (LogRecord Document)) : Prop where
  /-- An append is acknowledged, and the policy admits what it leaves
  unsynced, or it fails. -/
  append : ∀ c : SyncCall Document, c.Appends →
    (∃ record, acknowledged c (s.call codec c).1 = some record ∧
      Window codec (s.call codec c).2) ∨
    ∃ e, (s.call codec c).1 = .failed e
  /-- A flush that returns so leaves nothing unsynced; one that fails changes
  nothing, so that the next one tries again. -/
  flush : ∀ fault, (∃ e, s.call codec (.flush_wal fault) = (.failed e, s)) ∨
    ∃ s', s.call codec (.flush_wal fault) = (.done, s') ∧
      acked.Sublist (s'.synced_records codec) ∧
      (s.log.torn = false → s'.unsynced codec = [])
  /-- The end of a deferral syncs nothing, and forgets nothing. -/
  end_deferral : s.call codec .end_deferral =
    (.done, { s with sync_deferral_depth := s.sync_deferral_depth - 1 })
  /-- Once the file ends in a part of a frame, every append fails. -/
  torn : EndsInPart codec s → ∀ calls' p, Run (AckStep codec) (s, acked) calls' p →
    ∀ c : SyncCall Document, c.Appends → ∃ e, (p.1.call codec c).1 = .failed e
  /-- A reopen finds what was acknowledged and is synced, and everything that
  was acknowledged where the open handle wrote out what it buffered, or no
  append ever left it unsynced. -/
  reopen : ∀ len checkpoint, ∃ found log, s.reopen codec len checkpoint = (.ok found, log) ∧
    (∀ record ∈ acked, record ∈ found ∨ record ∈ s.unsynced codec) ∧
    (s.log.contents.length ≤ len → acked.Sublist found) ∧
    (sync_policy = .PerRecord → .defer_sync ∉ calls → acked.Sublist found)

/-- What a reopen finds. -/
theorem reopen_finds (h : Counts codec s base pending extra) (len : ℕ) (checkpoint : UInt64) :
    ∃ found log, s.reopen codec len checkpoint = (.ok found, log) ∧ base <+: found ∧
      (s.log.contents.length ≤ len → found = base ++ pending ++ extra) := by
  have hcontents := s.contents_drop_writer len
  obtain ⟨hbase, -, hknown⟩ := h.part (Nat.le_max_left s.synced len)
  rw [← hcontents] at hknown
  obtain ⟨log, hread, -⟩ := opening_reads codec s.log.wal_path
    (s.drop_writer len).log.wal_file s.log.doc_store.storage checkpoint hknown
  refine ⟨_, log, hread, ?_, fun hlen => ?_⟩
  · show base <+: codec.records_of (s.drop_writer len).log.contents
    rw [hcontents]
    exact hbase
  · show codec.records_of (s.drop_writer len).log.contents = _
    rw [hcontents, List.take_of_length_le (hlen.trans (Nat.le_max_right _ _)), h.holds.held]

/-- The log's part of an outcome. -/
def outcome {α : Type} (out : Except LaurusError α × SyncedLog Document) :
    Except LaurusError α × DocumentLog Document := (out.1, out.2.log)

theorem outcome_rewrite_wal (s : SyncedLog Document) (records : List (LogRecord Document)) :
    outcome (s.rewrite_wal codec records none) = s.log.rewrite_wal codec records := by
  unfold rewrite_wal DocumentLog.rewrite_wal
  rcases records.mapM codec.record_frame with e | frames <;> rfl

theorem outcome_open_writer (s : SyncedLog Document) :
    outcome (s.open_writer {}) = s.log.open_writer none := by
  have hstart : ∀ t : SyncedLog Document, t.log = s.log →
      outcome (t.start_writer {}) = s.log.open_writer none := by
    intro t ht
    unfold start_writer DocumentLog.open_writer
    rw [ht]
    dsimp only
    split <;> rfl
  rw [open_writer]
  dsimp only
  split
  · exact hstart s rfl
  · exact hstart _ rfl

theorem outcome_upgrade (s : SyncedLog Document) :
    outcome (s.upgrade codec {}) = s.log.upgrade codec := by
  rw [upgrade, DocumentLog.upgrade]
  rcases s.log.read_wal codec with ⟨e | ⟨records, cut_at⟩, log⟩
  · rfl
  · exact outcome_rewrite_wal { s with log } records

theorem outcome_ensure_writer (s : SyncedLog Document) :
    outcome (s.ensure_writer codec {}) = s.log.ensure_writer codec none := by
  have hupgrade := @outcome_upgrade _ codec s
  unfold ensure_writer upgrade_writer DocumentLog.ensure_writer
  rw [← hupgrade]
  split
  · rfl
  split
  · rfl
  dsimp only
  split
  · exact s.outcome_open_writer
  rcases detect_existing_format (s.log.wal_file.getD []) with _ | _ | _ | _ | version
  all_goals dsimp only
  case V4 => exact s.outcome_open_writer
  case Unknown => rfl
  all_goals
    rcases s.upgrade codec {} with ⟨e | _, t⟩
    · rfl
    · exact t.outcome_open_writer

theorem outcome_write_record (hopen : s.log.wal_writer = true) (record : LogRecord Document) :
    outcome (s.write_record codec record {}) = s.log.write_record codec record none := by
  have hflush : ∀ t : SyncedLog Document,
      outcome (if t.flush_now then t.flush_writer none else (.ok (), t)) = (.ok (), t.log) := by
    intro t
    split
    · unfold flush_writer
      split <;> rfl
    · rfl
  unfold write_record append_record_bytes DocumentLog.write_record
  rw [if_pos hopen]
  rcases codec.record_frame record with e | frame
  · rfl
  · exact hflush _

theorem open_writer_open (log : DocumentLog Document) :
    (log.open_writer none).2.wal_writer = true := by
  unfold DocumentLog.open_writer
  dsimp only
  split <;> rfl

theorem ensure_writer_open {log : DocumentLog Document}
    (h : (log.ensure_writer codec none).1 = .ok ()) :
    (log.ensure_writer codec none).2.wal_writer = true := by
  revert h
  unfold DocumentLog.ensure_writer
  split
  · intro h
    cases h
  split
  · rename_i hopen
    exact fun _ => hopen
  grind [open_writer_open]

/-- **An insertion in which storage does all it is asked** does to the log
what it does in the log's own model. -/
theorem outcome_append_put (s : SyncedLog Document) (external_id : String) (doc : Document)
    (replaces : List UInt64) :
    outcome (s.append_put codec external_id doc replaces {}) =
      s.log.append_put codec external_id doc replaces none := by
  have hensure := @outcome_ensure_writer _ codec s
  have hopen := @ensure_writer_open _ codec s.log
  unfold append_put DocumentLog.append_put
  rw [← hensure] at hopen ⊢
  rcases hout : s.ensure_writer codec {} with ⟨e | _, t⟩ <;> rw [hout] at hopen
  · rfl
  · dsimp only [outcome]
    set numbered : SyncedLog Document := { t with log := { t.log with
      next_doc_id := t.log.next_doc_id + 1, next_seq := t.log.next_seq + 1 } } with hnumbered
    have hwrite := @outcome_write_record _ codec numbered (hopen rfl)
      ⟨t.log.next_seq, .Upsert t.log.next_doc_id external_id doc replaces⟩
    rw [← hwrite]
    rcases numbered.write_record codec _ {} with ⟨e | _, u⟩ <;> rfl

theorem outcome_append_delete (s : SyncedLog Document) (doc_ids : List UInt64)
    (external_id : String) :
    outcome (s.append_delete codec doc_ids external_id {}) =
      s.log.append_delete codec doc_ids external_id none := by
  have hensure := @outcome_ensure_writer _ codec s
  have hopen := @ensure_writer_open _ codec s.log
  unfold append_delete DocumentLog.append_delete
  rw [← hensure] at hopen ⊢
  rcases hout : s.ensure_writer codec {} with ⟨e | _, t⟩ <;> rw [hout] at hopen
  · rfl
  · dsimp only [outcome]
    set numbered : SyncedLog Document :=
      { t with log := { t.log with next_seq := t.log.next_seq + 1 } } with hnumbered
    have hwrite := @outcome_write_record _ codec numbered (hopen rfl)
      ⟨t.log.next_seq, .Delete doc_ids external_id⟩
    rw [← hwrite]
    rcases numbered.write_record codec _ {} with ⟨e | _, u⟩ <;> rfl

theorem outcome_close_writer (s : SyncedLog Document) :
    outcome (s.close_writer {}) = (.ok (), { s.log with wal_writer := false }) := by
  unfold close_writer
  rcases hopen : s.log.wal_writer with _ | _
  · rw [if_neg Bool.false_ne_true, outcome, ← hopen]
  · rw [if_pos rfl]
    have hwhole : s.log.wal_file.map (List.take (max (s.log.wal_file.getD []).length
        (s.log.wal_file.getD []).length)) = s.log.wal_file := by
      rcases s.log.wal_file with _ | bytes
      · rfl
      simp
    grind [outcome, drop_writer]

theorem outcome_truncate (s : SyncedLog Document) (retain_after_seq : UInt64) :
    outcome (s.truncate_retaining_after codec retain_after_seq {}) =
      s.log.truncate_retaining_after codec retain_after_seq := by
  have hclose := s.outcome_close_writer
  unfold truncate_retaining_after DocumentLog.truncate_retaining_after
  rcases hout : s.close_writer {} with ⟨e | _, t⟩ <;> rw [hout] at hclose
  · cases hclose
  have hlog : t.log = { s.log with wal_writer := false } := congrArg Prod.snd hclose
  rw [← hlog]
  dsimp only
  split
  · rfl
  · rcases t.log.read_wal codec with ⟨e | ⟨records, cut_at⟩, log⟩
    · rfl
    · exact outcome_rewrite_wal { t with log } _

/-- Storage does all that a call asks. -/
def SyncCall.Faultless : SyncCall Document → Prop
  | .append_put _ _ _ io => io = {}
  | .append_delete _ _ io => io = {}
  | .flush_wal fault => fault = none
  | .defer_sync => True
  | .end_deferral => True
  | .truncate_retaining_after _ io => io = {}

/-- What a call does to the log's own model, in which nothing is synced: a
flush does nothing there, nor does a deferral. -/
def plain_call (codec : WalCodec Document) (log : DocumentLog Document) :
    SyncCall Document → SyncReturn × DocumentLog Document
  | .append_put external_id doc replaces _ =>
    (log.append_put codec external_id doc replaces none).map .of_put id
  | .append_delete doc_ids external_id _ =>
    (log.append_delete codec doc_ids external_id none).map .of_delete id
  | .flush_wal _ => (.done, log)
  | .defer_sync => (.done, log)
  | .end_deferral => (.done, log)
  | .truncate_retaining_after retain_after_seq _ =>
    (log.truncate_retaining_after codec retain_after_seq).map .of_unit id

theorem outcome_call (s : SyncedLog Document) {c : SyncCall Document} (h : c.Faultless) :
    (s.call codec c).map id log = plain_call codec s.log c := by
  cases c with
  | append_put external_id doc replaces io =>
      obtain rfl : io = {} := h
      rw [call, plain_call, ← outcome_append_put]
      rfl
  | append_delete doc_ids external_id io =>
      obtain rfl : io = {} := h
      rw [call, plain_call, ← outcome_append_delete]
      rfl
  | flush_wal fault =>
      obtain rfl : fault = none := h
      rw [call, plain_call, flush_wal, flush_writer]
      split <;> rfl
  | defer_sync => rfl
  | end_deferral => rfl
  | truncate_retaining_after retain_after_seq io =>
      obtain rfl : io = {} := h
      rw [call, plain_call, ← outcome_truncate]
      rfl

/-- **When the log is synced shows in nothing else.** Where storage does all it
is asked, any calls are answered as in the log's own model, whatever the policy,
the deferrals that are open and the syncs so far; and they leave the same file,
byte for byte, and the same counters. -/
theorem sync_policy_invisible (codec : WalCodec Document) (s : SyncedLog Document)
    {calls : List (SyncCall Document)} (h : ∀ c ∈ calls, c.Faultless) :
    (answers (call codec) s calls).1 = (answers (plain_call codec) s.log calls).1 ∧
      (answers (call codec) s calls).2.log = (answers (plain_call codec) s.log calls).2 := by
  induction calls generalizing s with
  | nil => exact ⟨rfl, rfl⟩
  | cons c calls ih =>
      have hcall := @outcome_call _ codec s c (h c List.mem_cons_self)
      have hanswer : (s.call codec c).1 = (plain_call codec s.log c).1 := congrArg Prod.fst hcall
      have hlog : (s.call codec c).2.log = (plain_call codec s.log c).2 := congrArg Prod.snd hcall
      obtain ⟨hanswers, hlast⟩ := ih (s.call codec c).2 fun c' hc' => h c' (List.mem_cons_of_mem _ hc')
      rw [hlog] at hanswers hlast
      exact ⟨congrArg₂ List.cons hanswer hanswers, hlast⟩

/-! ## A sample run -/

/-- An insertion in which storage does all it is asked. -/
def sampleSyncPut : SyncCall Unit := .append_put "" () [] {}

/-- In groups of two, and synced one by one, two insertions are answered alike. -/
theorem sync_policy_invisible_sample :
    (answers (call sampleWalCodec) (opened (.Group 2 4096 none) sampleFreshLog)
        [sampleSyncPut, .flush_wal none, sampleSyncPut]).1 =
      (answers (call sampleWalCodec) (opened .PerRecord sampleFreshLog)
        [sampleSyncPut, .flush_wal none, sampleSyncPut]).1 :=
  have hcalls : ∀ c ∈ [sampleSyncPut, .flush_wal none, sampleSyncPut], c.Faultless := by
    simp [sampleSyncPut, SyncCall.Faultless]
  (sync_policy_invisible sampleWalCodec (opened (.Group 2 4096 none) sampleFreshLog) hcalls).1.trans
    (sync_policy_invisible sampleWalCodec (opened .PerRecord sampleFreshLog) hcalls).1.symm

end SyncedLog

end Laurus
