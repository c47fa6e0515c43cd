import Laurus.Vector.Helpers.SegmentManager
import Laurus.Vector.Model.SegmentedCore

/-!
# A segment registry over whole runs

The file of a listed segment is there after every call, whatever saves fail.
The rest holds of the runs whose changes are saved: memory agrees with the
manifest, ids and generations are distinct, and no id is handed out twice.
One failed `add_segment`, tried again, registers a segment twice.
-/

namespace Laurus

namespace SegmentRegistry

open SegmentManager

variable {layout : SegmentFileLayout} {storage storage' : SegmentStorage}
variable {m : SegmentManager} {r r' : SegmentRegistry} {call : RegistryCall} {id : String}
variable {segments : List ManagedSegmentInfo} {outcome : SaveOutcome}

/-! ## Files -/

/-- The ids of some entries. -/
def ids (segments : List ManagedSegmentInfo) : List String :=
  segments.map ManagedSegmentInfo.segment_id

/-- The segments listed in memory, or on storage, have their files. -/
def Filed (layout : SegmentFileLayout) (m : SegmentManager) (storage : SegmentStorage) : Prop :=
  ∀ id, id ∈ ids m.segments ∨ id ∈ ids (load_state storage.manifest).segments →
    HasFile layout storage id

theorem hasFile_save (h : HasFile layout storage id) :
    HasFile layout (m.save_state_locked segments storage outcome).2 id :=
  file_size_save h

theorem filed_replace (outcome : SaveOutcome) (hold : Filed layout m storage)
    (hnew : ∀ id ∈ ids segments, HasFile layout storage id) :
    Filed layout (m.replace_segments segments storage outcome).2.1
      (m.replace_segments segments storage outcome).2.2 := by
  intro id hid
  refine hasFile_save ?_
  rcases hid with hmem | hstored
  · exact hnew id hmem
  · rcases mem_load_state_ids_save hstored with hsaved | hbefore
    · exact hnew id hsaved
    · exact hold id (Or.inr hbefore)

theorem ids_filled_in (segments : List ManagedSegmentInfo) (info : ManagedSegmentInfo) :
    ids (segments ++ [filled_in layout m storage info]) = ids segments ++ [info.segment_id] := by
  unfold ids
  rw [List.map_append]
  rfl

variable {pos : ℕ} {info : ManagedSegmentInfo} {candidate : List ManagedSegmentInfo}
  {undeleted : Finset String} {listed : Bool} {segment_id : String}

theorem mem_ids_set
    (h : id ∈ ids (segments.set pos info)) : id ∈ ids segments ∨ id = info.segment_id := by
  obtain ⟨s, hs, rfl⟩ := List.mem_map.1 h
  rcases List.mem_or_eq_of_mem_set hs with hold | rfl
  · exact Or.inl (List.mem_map_of_mem hold)
  · exact Or.inr rfl

theorem of_findIdx (h : (segments.findIdx? fun s => s.segment_id = id) = some pos) :
    ∃ s, segments[pos]? = some s ∧ s.segment_id = id := by
  obtain ⟨hlt, hfound, _⟩ := List.findIdx?_eq_some_iff_getElem.1 h
  grind

/-- The entries that a merge leaves, and the merged one. -/
def merged (segments candidate : List ManagedSegmentInfo) (merged_segment : ManagedSegmentInfo) :
    List ManagedSegmentInfo :=
  (segments.filter fun s => s.segment_id ∉ candidate.map ManagedSegmentInfo.segment_id) ++
    [merged_segment]

/-- The merged entry as it is registered. -/
def measured (layout : SegmentFileLayout) (storage : SegmentStorage)
    (merged_segment : ManagedSegmentInfo) : ManagedSegmentInfo :=
  { merged_segment with
    size_bytes := measure_segment_size layout storage merged_segment.segment_id }

theorem mem_ids_merged
    (h : id ∈ ids (merged segments candidate info)) :
    id ∈ ids segments ∧ id ∉ ids candidate ∨ id = info.segment_id := by
  unfold ids merged at h
  rw [List.map_append, List.mem_append] at h
  rcases h with hkept | hlast
  · obtain ⟨s, hs, rfl⟩ := List.mem_map.1 hkept
    obtain ⟨hmem, hout⟩ := List.mem_filter.1 hs
    exact Or.inl ⟨List.mem_map_of_mem hmem, of_decide_eq_true hout⟩
  grind

theorem hasFile_delete {gone : List String} (hid : id ∉ gone)
    (h : HasFile layout storage id) :
    HasFile layout (SegmentManager.delete_segment_files layout storage gone undeleted) id := by
  grind [HasFile, SegmentManager.delete_segment_files, file_size_delete_files,
    SegmentFileLayout.primary_notMem_files]

theorem hasFile_sweep (hid : id ∈ ids m.segments)
    (h : HasFile layout storage id) :
    HasFile layout (m.cleanup_orphans layout storage listed undeleted) id := by
  unfold cleanup_orphans
  split
  · unfold HasFile
    rw [file_size_delete_files (is_orphan_file_primary hid)]
    exact h
  · exact h

theorem manifest_cleanup_orphans :
    (m.cleanup_orphans layout storage listed undeleted).manifest = storage.manifest := by
  unfold cleanup_orphans delete_files
  split <;> rfl

theorem filed_opened {handed : List String}
    (h : ∀ id ∈ ids (load_state storage.manifest).segments, HasFile layout storage id) :
    Filed layout (opened layout storage listed undeleted handed).manager
      (opened layout storage listed undeleted handed).storage := by
  have hmanifest : (opened layout storage listed undeleted handed).storage.manifest =
      storage.manifest := manifest_cleanup_orphans
  intro id hid
  rw [hmanifest] at hid
  have hlisted : id ∈ ids (load_state storage.manifest).segments :=
    hid.elim (fun h => h) fun h => h
  exact hasFile_sweep hlisted (h id hlisted)

/-- A merge's sources are the only segments whose files go, and then no list
has them. -/
theorem filed_apply_merge (hfiled : Filed layout m storage)
    (hfile : HasFile layout storage info.segment_id)
    (hsources : ∀ s ∈ candidate, s ∈ m.segments)
    (hnew : ∀ s ∈ m.segments, s.segment_id ≠ info.segment_id) :
    Filed layout (m.apply_merge layout storage candidate info outcome undeleted).2.1
      (m.apply_merge layout storage candidate info outcome undeleted).2.2 := by
  have hlist : ∀ id ∈ ids (merged m.segments candidate (measured layout storage info)),
      HasFile layout storage id := by
    intro id hid
    rcases mem_ids_merged hid with ⟨hkept, _⟩ | rfl
    · exact hfiled id (Or.inl hkept)
    · exact hfile
  match outcome with
  | .failed staged =>
    have hreplaced := filed_replace (.failed staged) hfiled hlist
    exact hreplaced
  | .saved =>
    intro id hid
    -- what is listed now is in the saved list, which has no source
    have hin : id ∈ ids (merged m.segments candidate (measured layout storage info)) := by
      rcases hid with hmem | hstored
      · exact hmem
      · unfold ids at hstored
        rw [load_state_ids] at hstored
        exact hstored
    have hout : id ∉ ids candidate := by
      rcases mem_ids_merged hin with ⟨_, hout⟩ | rfl
      · exact hout
      · intro hsource
        obtain ⟨s, hs, hid⟩ := List.mem_map.1 hsource
        exact hnew s (hsources s hs) hid
    exact hasFile_delete hout (hlist id hin)

/-- **A call keeps the files of what is listed.** -/
theorem filed_run (call : RegistryCall) (h : Filed layout r.manager r.storage)
    (hpromised : Promised layout r call) :
    Filed layout (r.run layout call).manager (r.run layout call).storage := by
  match call with
  | .generate_segment_id => exact h
  | .write_file file size =>
    intro id hid
    have hbefore : HasFile layout r.storage id := h id hid
    grind [HasFile, run]
  | .add_segment info outcome =>
    refine filed_replace _ h fun id hid => ?_
    rw [ids_filled_in, List.mem_append] at hid
    rcases hid with hmem | hlast
    · exact h id (Or.inl hmem)
    · rw [List.mem_singleton.1 hlast]
      exact hpromised.2.1
  | .remove_segment segment_id outcome =>
    unfold run remove_segment
    dsimp only
    split
    · refine filed_replace _ h fun id hid => ?_
      obtain ⟨s, hs, rfl⟩ := List.mem_map.1 hid
      exact h _ (Or.inl (List.mem_map_of_mem (List.mem_of_mem_eraseIdx hs)))
    · exact h
  | .update_segment info outcome =>
    unfold run update_segment
    dsimp only
    split
    · rename_i pos hpos
      refine filed_replace _ h fun id hid => ?_
      obtain ⟨s, hs, hsame⟩ := of_findIdx hpos
      rcases mem_ids_set hid with hmem | rfl
      · exact h id (Or.inl hmem)
      · exact h _ (Or.inl (hsame ▸ List.mem_map_of_mem (List.mem_of_getElem? hs)))
    · exact filed_replace _ h fun id hid => h id (Or.inl hid)
  | .apply_merge candidate merged_segment outcome undeleted =>
    obtain ⟨_, hsources, _, hfile, _, hnew⟩ := hpromised
    exact filed_apply_merge h hfile hsources hnew
  | .set_pending_wal_seq seq => exact h
  | .rollback_pending_wal_seq => exact h
  | .persist_deletions deletions_written outcome =>
    unfold run persist_deletions
    dsimp only
    split
    · exact h
    · split
      · have hset : Filed layout (r.manager.set_last_wal_seq r.pending_wal_seq) r.storage := h
        exact filed_replace _ hset fun id hid => h id (Or.inl hid)
      · exact h
  | .reopen listed undeleted =>
    exact filed_opened fun id hid => h id (Or.inr hid)

theorem filed_start (h : Opens layout storage) :
    Filed layout (start layout storage listed undeleted).manager
      (start layout storage listed undeleted).storage := by
  refine filed_opened fun id hid => ?_
  grind [ids, load_state_ids, Opens.files]

/-! ## Ids and generations -/

/-- Entries that differ in their ids and in their generations. -/
structure Distinct (segments : List ManagedSegmentInfo) : Prop where
  ids : (ids segments).Nodup
  generations : (segments.map ManagedSegmentInfo.generation).Nodup
  nonzero : ∀ s ∈ segments, s.generation ≠ 0

theorem Distinct.sublist {kept : List ManagedSegmentInfo} (h : Distinct segments)
    (hsub : kept.Sublist segments) : Distinct kept where
  ids := h.ids.sublist (hsub.map _)
  generations := h.generations.sublist (hsub.map _)
  nonzero := fun s hs => h.nonzero s (hsub.subset hs)

theorem Distinct.append (h : Distinct segments)
    (hid : info.segment_id ∉ SegmentRegistry.ids segments)
    (hgeneration : info.generation ∉ segments.map ManagedSegmentInfo.generation)
    (hnonzero : info.generation ≠ 0) : Distinct (segments ++ [info]) where
  ids := by
    grind [SegmentRegistry.ids, ids]
  generations := by
    grind [generations]
  nonzero := by
    grind [nonzero]

theorem Distinct.filled_in (layout : SegmentFileLayout) (storage : SegmentStorage) (h : Distinct m.segments)
    (hid : info.segment_id ∉ SegmentRegistry.ids m.segments) (hzero : info.generation = 0) :
    Distinct (m.segments ++ [SegmentManager.filled_in layout m storage info]) := by
  have hstamp : (SegmentManager.filled_in layout m storage info).generation =
      max_generation m.segments + 1 := if_pos hzero
  refine h.append hid (fun hmem => ?_) (by omega)
  obtain ⟨s, hs, hsame⟩ := List.mem_map.1 hmem
  have := le_max_generation hs
  omega

theorem Distinct.merged (layout : SegmentFileLayout) (storage : SegmentStorage) (h : Distinct segments)
    (hne : candidate ≠ []) (hsources : ∀ s ∈ candidate, s ∈ segments)
    (hgeneration : info.generation = max_generation candidate)
    (hid : info.segment_id ∉ SegmentRegistry.ids segments) :
    Distinct (SegmentRegistry.merged segments candidate (measured layout storage info)) := by
  obtain ⟨source, hsource, hmax⟩ := max_generation_mem hne
  refine (h.sublist List.filter_sublist).append (fun hmem => ?_) (fun hmem => ?_) ?_
  · obtain ⟨s, hs, hsame⟩ := List.mem_map.1 hmem
    exact hid (List.mem_map.2 ⟨s, (List.mem_filter.1 hs).1, hsame⟩)
  · obtain ⟨s, hs, hsame⟩ := List.mem_map.1 hmem
    obtain ⟨hlisted, hout⟩ := List.mem_filter.1 hs
    -- the one entry of that generation is a source, and has gone
    have hgen : s.generation = source.generation := by
      rw [hsame, hmax]
      exact hgeneration
    have heq : s = source :=
      List.inj_on_of_nodup_map h.generations hlisted (hsources source hsource) hgen
    grind
  grind [nonzero, measured]

theorem map_set_of_eq {β : Type*} (f : ManagedSegmentInfo → β) {s : ManagedSegmentInfo} (hpos : segments[pos]? = some s) (hf : f s = f info) :
    (segments.set pos info).map f = segments.map f := by
  grind [List.map_set, List.set_getElem_self]

theorem Distinct.set {s : ManagedSegmentInfo} (h : Distinct segments)
    (hpos : segments[pos]? = some s) (hid : s.segment_id = info.segment_id)
    (hnonzero : info.generation ≠ 0)
    (hother : ∀ t ∈ segments, t.segment_id ≠ info.segment_id → t.generation ≠ info.generation) :
    Distinct (segments.set pos info) where
  ids := by
    have hsame : SegmentRegistry.ids (segments.set pos info) = SegmentRegistry.ids segments :=
      map_set_of_eq _ hpos hid
    rw [hsame]
    exact h.ids
  generations := by
    by_cases hsame : s.generation = info.generation
    · rw [map_set_of_eq _ hpos hsame]
      exact h.generations
    · rw [List.map_set]
      refine List.Nodup.set h.generations fun hmem => ?_
      obtain ⟨t, ht, hgen⟩ := List.mem_map.1 hmem
      by_cases htid : t.segment_id = info.segment_id
      · have hst : t = s := List.inj_on_of_nodup_map h.ids ht (List.mem_of_getElem? hpos)
          (htid.trans hid.symm)
        exact hsame (hst ▸ hgen)
      · exact hother t ht htid hgen
  nonzero := by
    grind [nonzero]

/-! ## Memory and storage -/

/-- What is in memory is what the manifest loads as. -/
structure Synced (m : SegmentManager) (storage : SegmentStorage) : Prop where
  segments : (load_state storage.manifest).segments = m.segments
  wal : (load_state storage.manifest).last_wal_seq = m.last_wal_seq

theorem synced_saved (m : SegmentManager) (storage : SegmentStorage) (h : Distinct segments) :
    Synced (m.replace_segments segments storage .saved).2.1
      (m.replace_segments segments storage .saved).2.2 :=
  ⟨(load_state_saved (m := m) h.nonzero).1, rfl⟩

theorem synced_unchanged (h : Synced m storage) (hdistinct : Distinct m.segments) :
    Synced (m.replace_segments m.segments storage outcome).2.1
      (m.replace_segments m.segments storage outcome).2.2 := by
  match outcome with
  | .saved => exact synced_saved _ _ hdistinct
  | .failed _ => exact ⟨h.segments, h.wal⟩

/-! ## What the callers hold -/

/-- The ids handed out are below the counter, those listed are among them,
and those being written are not listed yet. -/
structure Ledger (segments : List ManagedSegmentInfo) (next : ℕ) (handed writing : List String) :
    Prop where
  below : ∀ n, segment_id_of n ∈ handed → n < next
  listed_handed : ∀ id ∈ ids segments, id ∈ handed
  writing_nodup : writing.Nodup
  writing_handed : ∀ id ∈ writing, id ∈ handed ∧ ∃ n, id = segment_id_of n
  writing_unlisted : ∀ id ∈ writing, id ∉ ids segments

variable {next : ℕ} {handed writing : List String}

theorem Ledger.shrink {kept : List ManagedSegmentInfo} (h : Ledger segments next handed writing)
    (hsub : ids kept ⊆ ids segments) : Ledger kept next handed writing where
  below := h.below
  listed_handed := fun id hid => h.listed_handed id (hsub hid)
  writing_nodup := h.writing_nodup
  writing_handed := h.writing_handed
  writing_unlisted := fun id hid hin => h.writing_unlisted id hid (hsub hin)

theorem Ledger.generate (h : Ledger segments next handed writing) :
    Ledger segments (next + 1) (handed ++ [segment_id_of next])
      (writing ++ [segment_id_of next]) := by
  have hfresh : segment_id_of next ∉ handed := fun hin => Nat.lt_irrefl _ (h.below next hin)
  refine ⟨fun n hn => ?_, fun id hid => List.mem_append_left _ (h.listed_handed id hid), ?_,
    fun id hid => ?_, fun id hid hin => ?_⟩
  · rcases List.mem_append.1 hn with hold | hlast
    · have := h.below n hold
      omega
    · have := segment_id_of_injective (List.mem_singleton.1 hlast)
      omega
  · grind [writing_nodup, writing_handed]
  · grind [writing_handed]
  grind [writing_unlisted, listed_handed]

theorem Ledger.register {after : List ManagedSegmentInfo}
    (h : Ledger segments next handed writing)
    (hknown : segment_id ∈ writing ∨ ∀ n, segment_id ≠ segment_id_of n)
    (hafter : ∀ id ∈ ids after, id ∈ ids segments ∨ id = segment_id) :
    Ledger after next (handed ++ [segment_id]) (writing.erase segment_id) where
  below := by
    intro n hn
    rcases List.mem_append.1 hn with hold | hlast
    · exact h.below n hold
    · have hsame := List.mem_singleton.1 hlast
      rcases hknown with hwriting | hother
      · exact h.below n (hsame ▸ (h.writing_handed _ hwriting).1)
      · exact absurd hsame.symm (hother n)
  listed_handed := by
    grind [listed_handed]
  writing_nodup := h.writing_nodup.erase _
  writing_handed := by
    intro id hid
    have hold := h.writing_handed id (List.mem_of_mem_erase hid)
    grind
  writing_unlisted := by
    intro id hid hin
    obtain ⟨hne, hold⟩ := h.writing_nodup.mem_erase_iff.1 hid
    grind [writing_unlisted]

/-! ## Runs whose changes are saved -/

/-- Between the calls of such a run. -/
structure Kept (layout : SegmentFileLayout) (r : SegmentRegistry) : Prop where
  filed : Filed layout r.manager r.storage
  distinct : Distinct r.manager.segments
  synced : Synced r.manager r.storage
  ledger : Ledger r.manager.segments r.manager.next_segment_id r.handed r.writing

theorem Kept.consistent (h : Kept layout r) : Consistent layout r where
  segments_on_storage := h.synced.segments
  wal_on_storage := h.synced.wal
  ids_distinct := h.distinct.ids
  generations_distinct := h.distinct.generations
  files_exist := fun s hs => h.filed s.segment_id (Or.inl (List.mem_map_of_mem hs))
  next_id_fresh := fun hin => Nat.lt_irrefl _ (h.ledger.below _ hin)

/-- A segment being written, or the first one of an older layout, is not
listed. -/
theorem Kept.not_listed (h : Kept layout r)
    (hknown : segment_id ∈ r.writing ∨
      r.manager.segments = [] ∧ ∀ n, segment_id ≠ segment_id_of n) :
    segment_id ∉ ids r.manager.segments := by
  rcases hknown with hwriting | ⟨hempty, _⟩
  · exact h.ledger.writing_unlisted _ hwriting
  · rw [hempty]
    exact List.not_mem_nil

theorem Kept.add_segment (h : Kept layout r)
    (hpromised : Promised layout r (.add_segment info outcome)) (hsaved : outcome = .saved) :
    Kept layout (r.run layout (.add_segment info outcome)) := by
  have hfiled := filed_run _ h.filed hpromised
  obtain ⟨hzero, _, hknown⟩ := hpromised
  subst hsaved
  have hdistinct := h.distinct.filled_in layout r.storage (h.not_listed hknown) hzero
  refine ⟨hfiled, hdistinct, synced_saved _ _ hdistinct, h.ledger.register ?_ fun id hid => ?_⟩
  · grind
  · have hin : id ∈ ids (r.manager.segments ++
        [SegmentManager.filled_in layout r.manager r.storage info]) := hid
    rw [ids_filled_in, List.mem_append] at hin
    exact hin.imp_right List.mem_singleton.1

theorem Kept.remove_segment (h : Kept layout r)
    (hsaves : Saves r (.remove_segment segment_id outcome)) :
    Kept layout (r.run layout (.remove_segment segment_id outcome)) := by
  have hfiled := filed_run (.remove_segment segment_id outcome) h.filed trivial
  unfold run SegmentManager.remove_segment at hfiled ⊢
  dsimp only at hfiled ⊢
  split
  · rename_i pos hpos
    obtain ⟨s, hs, hid⟩ := of_findIdx hpos
    obtain rfl := hsaves ⟨s, List.mem_of_getElem? hs, hid⟩
    have hdistinct := h.distinct.sublist (List.eraseIdx_sublist r.manager.segments pos)
    rw [hpos] at hfiled
    refine ⟨hfiled, hdistinct, synced_saved _ _ hdistinct, h.ledger.shrink ?_⟩
    exact List.map_subset _ (List.eraseIdx_subset)
  · exact h

theorem Kept.update_segment (h : Kept layout r)
    (hsaves : Saves r (.update_segment info outcome)) :
    Kept layout (r.run layout (.update_segment info outcome)) := by
  have hfiled := filed_run (.update_segment info outcome) h.filed trivial
  unfold run SegmentManager.update_segment at hfiled ⊢
  dsimp only at hfiled ⊢
  split
  · rename_i pos hpos
    rw [hpos] at hfiled
    obtain ⟨s, hs, hid⟩ := of_findIdx hpos
    have hsame := hsaves s (List.mem_of_getElem? hs)
    rw [if_pos hid] at hsame
    have hdistinct : Distinct (r.manager.segments.set pos info) := by
      refine h.distinct.set hs hid hsame.1 fun t ht hne => ?_
      have hother := hsaves t ht
      rwa [if_neg hne] at hother
    have hids : ids (r.manager.segments.set pos info) = ids r.manager.segments :=
      map_set_of_eq _ hs hid
    refine ⟨hfiled, hdistinct, ?_, h.ledger.shrink (hids ▸ List.Subset.refl _)⟩
    rcases hsame.2 with rfl | rfl
    · -- the entry is the one that is there
      have hunchanged : r.manager.segments.set pos info = r.manager.segments := by
        have := map_set_of_eq (fun s => s) hs rfl
        rwa [List.map_id', List.map_id'] at this
      rw [hunchanged]
      exact synced_unchanged h.synced h.distinct
    · exact synced_saved _ _ hdistinct
  · rename_i hpos
    rw [hpos] at hfiled
    exact ⟨hfiled, h.distinct, synced_unchanged h.synced h.distinct, h.ledger⟩

theorem Kept.apply_merge (h : Kept layout r)
    (hpromised : Promised layout r (.apply_merge candidate info outcome undeleted))
    (hsaved : outcome = .saved) :
    Kept layout (r.run layout (.apply_merge candidate info outcome undeleted)) := by
  have hfiled := filed_run _ h.filed hpromised
  obtain ⟨hne, hsources, hgeneration, _, hwriting, _⟩ := hpromised
  subst hsaved
  have hdistinct := h.distinct.merged layout r.storage hne hsources hgeneration
    (h.not_listed (Or.inl hwriting))
  have hsynced := synced_saved r.manager r.storage hdistinct
  refine ⟨hfiled, hdistinct, ⟨hsynced.segments, hsynced.wal⟩,
    h.ledger.register (Or.inl hwriting) fun id hid => ?_⟩
  exact (mem_ids_merged hid).imp_left And.left

theorem Kept.persist_deletions {deletions_written : Bool} (h : Kept layout r)
    (hsaves : Saves r (.persist_deletions deletions_written outcome)) :
    Kept layout (r.run layout (.persist_deletions deletions_written outcome)) := by
  have hfiled := filed_run (.persist_deletions deletions_written outcome) h.filed trivial
  unfold run SegmentRegistry.persist_deletions at hfiled ⊢
  dsimp only at hfiled ⊢
  split
  · exact h
  · rename_i hwritten
    rw [if_neg hwritten] at hfiled
    split
    · rename_i hlt
      rw [if_pos hlt] at hfiled
      obtain rfl := hsaves (by simpa using hwritten) hlt
      exact ⟨hfiled, h.distinct,
        synced_saved (r.manager.set_last_wal_seq r.pending_wal_seq) _ h.distinct, h.ledger⟩
    · exact h

theorem Kept.reopen (h : Kept layout r)
    (hsaves : Saves r (.reopen listed undeleted)) :
    Kept layout (r.run layout (.reopen listed undeleted)) := by
  have hmanifest : (r.run layout (.reopen listed undeleted)).storage.manifest =
      r.storage.manifest := manifest_cleanup_orphans
  have hsegments := h.synced.segments
  refine ⟨filed_run _ h.filed trivial, ?_, ⟨by rw [hmanifest]; rfl, by rw [hmanifest]; rfl⟩, ?_⟩
  · exact (hsegments ▸ h.distinct :)
  · have hbelow := h.ledger.below
    rw [← hsaves] at hbelow
    refine ⟨hbelow, fun id hid => h.ledger.listed_handed id ?_, List.nodup_nil,
      fun id hid => absurd hid List.not_mem_nil, fun id hid => absurd hid List.not_mem_nil⟩
    rw [← hsegments]
    exact hid

/-- **A call that saves what it changes keeps everything.** -/
theorem Kept.run (h : Kept layout r) (hpromised : Promised layout r call)
    (hsaves : Saves r call) : Kept layout (r.run layout call) := by
  match call with
  | .generate_segment_id =>
    exact ⟨h.filed, h.distinct, ⟨h.synced.segments, h.synced.wal⟩, h.ledger.generate⟩
  | .write_file file size =>
    exact ⟨filed_run (.write_file file size) h.filed trivial, h.distinct,
      ⟨h.synced.segments, h.synced.wal⟩, h.ledger⟩
  | .add_segment info outcome => exact h.add_segment hpromised hsaves
  | .remove_segment segment_id outcome => exact h.remove_segment hsaves
  | .update_segment info outcome => exact h.update_segment hsaves
  | .apply_merge candidate merged_segment outcome undeleted =>
    exact h.apply_merge hpromised hsaves
  | .set_pending_wal_seq seq => exact ⟨h.filed, h.distinct, h.synced, h.ledger⟩
  | .rollback_pending_wal_seq => exact ⟨h.filed, h.distinct, h.synced, h.ledger⟩
  | .persist_deletions deletions_written outcome => exact h.persist_deletions hsaves
  | .reopen listed undeleted => exact h.reopen hsaves

theorem kept_start (h : Opens layout storage) :
    Kept layout (start layout storage listed undeleted) := by
  have hmanifest : (start layout storage listed undeleted).storage.manifest = storage.manifest :=
    manifest_cleanup_orphans
  have hstamped := stamp_generations_spec h.generations
  have hids : ids (load_state storage.manifest).segments =
      ids (manifest_segments storage.manifest) := load_state_ids _
  have hdistinct : Distinct (load_state storage.manifest).segments := by
    refine ⟨hids ▸ h.ids, ?_, ?_⟩
    · rw [load_state_segments]
      exact hstamped.1
    · rw [load_state_segments]
      exact hstamped.2
  refine ⟨filed_start h, hdistinct, ⟨by rw [hmanifest]; rfl, by rw [hmanifest]; rfl⟩, ?_⟩
  refine ⟨fun n hn => ?_, fun id hid => ?_, List.nodup_nil,
    fun id hid => absurd hid List.not_mem_nil, fun id hid => absurd hid List.not_mem_nil⟩
  · obtain ⟨s, hs, hid⟩ := List.mem_map.1 hn
    have hloaded : segment_id_of n ∈ ids (load_state storage.manifest).segments := by
      rw [hids]
      exact hn
    obtain ⟨t, ht, htid⟩ := List.mem_map.1 hloaded
    exact (lt_max_segment_id ht htid (h.numbers s hs n hid)).trans_le (max_segment_id_le_next _)
  · exact (hids ▸ hid :)

/-- Storage without a file. -/
def no_files : SegmentStorage := { file_size := fun _ => none, manifest := none }

theorem opens_no_files (layout : SegmentFileLayout) : Opens layout no_files where
  ids := List.nodup_nil
  generations := List.Pairwise.nil
  numbers := fun _ hs => absurd hs List.not_mem_nil
  files := fun _ hs => absurd hs List.not_mem_nil

/-- Two commits, a merge of their segments, a checkpoint, and a reopen. -/
def two_commits_and_a_merge : List RegistryCall :=
  [.generate_segment_id, .write_file "segment_000000.hnsw" 7,
    .add_segment ⟨"segment_000000", 1, 0, 0, 0⟩ .saved,
    .generate_segment_id, .write_file "segment_000001.hnsw" 7,
    .add_segment ⟨"segment_000001", 1, 0, 0, 0⟩ .saved,
    .generate_segment_id, .write_file "segment_000002.hnsw" 9,
    .apply_merge [⟨"segment_000000", 1, 0, 1, 7⟩, ⟨"segment_000001", 1, 0, 2, 7⟩]
      ⟨"segment_000002", 2, 0, 2, 0⟩ .saved ∅,
    .set_pending_wal_seq 5, .persist_deletions true .saved, .reopen true ∅]

/-- A commit whose save fails, and the same commit once more. -/
def commit_retried : List RegistryCall :=
  [.generate_segment_id, .write_file "segment_000000.hnsw" 7,
    .add_segment ⟨"segment_000000", 1, 0, 0, 0⟩ (.failed false),
    .add_segment ⟨"segment_000000", 1, 0, 0, 0⟩ .saved]

end SegmentRegistry

end Laurus
