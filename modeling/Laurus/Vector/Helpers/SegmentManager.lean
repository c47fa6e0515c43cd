import Laurus.Vector.Model.SegmentedCore

/-!
# The segment registry: names, stamps and sweeps

An id gives back its number. Stamping leaves distinct generations. The sweep
and a merge's deletions leave the file of a listed segment alone.
-/

namespace Laurus

/-! ## Names -/

theorem segment_ordinal_segment_id_of (id : ℕ) : segment_ordinal (segment_id_of id) =
    some (List.replicate (6 - (Nat.toDigits 10 id).length) '0' ++ Nat.toDigits 10 id) := by
  simp [segment_id_of, segment_ordinal]

theorem ofDigitChars_padded (zeros id : ℕ) :
    Nat.ofDigitChars 10 (List.replicate zeros '0' ++ Nat.toDigits 10 id) 0 = id := by
  rw [Nat.ofDigitChars_append, Nat.ofDigitChars_replicate_zero, Nat.mul_zero,
    Nat.ofDigitChars_ten_toDigits]

/-- **Two numbers give two ids.** -/
theorem segment_id_of_injective : Function.Injective segment_id_of := by
  intro a b hab
  have hordinal := congrArg segment_ordinal hab
  rw [segment_ordinal_segment_id_of, segment_ordinal_segment_id_of] at hordinal
  have hvalue := congrArg (fun chars => Nat.ofDigitChars 10 chars 0) (Option.some.inj hordinal)
  simpa only [ofDigitChars_padded] using hvalue

variable {id : ℕ} {segments : List ManagedSegmentInfo}

theorem isDigit_of_mem_padded {zeros : ℕ} {c : Char}
    (h : c ∈ List.replicate zeros '0' ++ Nat.toDigits 10 id) : c.isDigit = true := by
  rcases List.mem_append.1 h with hzero | hdigit
  · rw [(List.mem_replicate.1 hzero).2]
    rfl
  · exact Nat.isDigit_of_mem_toDigits (by decide) (by decide) hdigit

theorem parse_u64_padded {zeros : ℕ} (h : id < 2 ^ 64) :
    parse_u64 (List.replicate zeros '0' ++ Nat.toDigits 10 id) = some id := by
  set digits := List.replicate zeros '0' ++ Nat.toDigits 10 id with hdigits
  have hne : digits ≠ [] :=
    List.append_ne_nil_of_right_ne_nil _ (List.ne_nil_of_length_pos Nat.length_toDigits_pos)
  have hall : digits.all Char.isDigit = true :=
    List.all_eq_true.2 fun c hc => isDigit_of_mem_padded hc
  have hsign : digits.head? ≠ some '+' := by
    intro hplus
    exact absurd (isDigit_of_mem_padded (List.mem_of_head? hplus)) (by decide)
  grind [ofDigitChars_padded, parse_u64]

theorem lt_max_segment_id {s : ManagedSegmentInfo}
    (hs : s ∈ segments) (hid : s.segment_id = segment_id_of id) (h : id < 2 ^ 64) :
    id < max_segment_id segments := by
  have hmem : id ∈ segments.filterMap fun s => (segment_ordinal s.segment_id).bind parse_u64 := by
    refine List.mem_filterMap.2 ⟨s, hs, ?_⟩
    rw [hid, segment_ordinal_segment_id_of, Option.bind_some, parse_u64_padded h]
  unfold max_segment_id
  generalize segments.filterMap _ = ids at hmem
  induction ids with
  | nil => exact absurd hmem List.not_mem_nil
  | cons first ids ih =>
    grind

/-! ## Stamps -/

theorem segment_ids_stamp_zeros (next : ℕ) (segments : List ManagedSegmentInfo) :
    (stamp_zeros next segments).map ManagedSegmentInfo.segment_id =
      segments.map ManagedSegmentInfo.segment_id := by
  induction segments generalizing next with
  | nil => rfl
  | cons s segments ih =>
    unfold stamp_zeros
    grind

theorem segment_ids_stamp_generations (segments : List ManagedSegmentInfo) :
    (stamp_generations segments).map ManagedSegmentInfo.segment_id =
      segments.map ManagedSegmentInfo.segment_id := by
  grind [stamp_generations, segment_ids_stamp_zeros, List.map_congr_left]

theorem stamp_generations_of_nonzero
    (h : ∀ s ∈ segments, s.generation ≠ 0) : stamp_generations segments = segments := by
  unfold stamp_generations
  grind

theorem generation_of_mem_stamp_zeros {next g : ℕ}
    (h : g ∈ (stamp_zeros next segments).map ManagedSegmentInfo.generation) :
    next < g ∧ g ≤ next + (segments.countP fun s => s.generation = 0) ∨
      ∃ s ∈ segments, s.generation ≠ 0 ∧ s.generation = g := by
  induction segments generalizing next with
  | nil => exact absurd h List.not_mem_nil
  | cons s segments ih =>
    unfold stamp_zeros at h
    grind

/-- The generations there are distinct. -/
def StampedApart (segments : List ManagedSegmentInfo) : Prop :=
  segments.Pairwise fun s t => s.generation ≠ 0 → s.generation ≠ t.generation

theorem nodup_stamp_zeros {next : ℕ}
    (habove : ∀ s ∈ segments, s.generation ≠ 0 →
      next + (segments.countP fun s => s.generation = 0) < s.generation)
    (hapart : StampedApart segments) :
    ((stamp_zeros next segments).map ManagedSegmentInfo.generation).Nodup := by
  induction segments generalizing next with
  | nil => exact List.nodup_nil
  | cons s segments ih =>
    have htail := (List.pairwise_cons.1 hapart).2
    unfold stamp_zeros
    split
    · rename_i hzero
      rw [List.map_cons, List.nodup_cons]
      refine ⟨fun hmem => ?_, ih (fun t ht hne => ?_) htail⟩
      · rcases generation_of_mem_stamp_zeros hmem with ⟨hlow, _⟩ | ⟨t, ht, hne, hg⟩
        · dsimp only at hlow
          omega
        grind
      grind
    · rename_i hne
      rw [List.map_cons, List.nodup_cons]
      refine ⟨fun hmem => ?_, ih (fun t ht hne' => ?_) htail⟩
      · rcases generation_of_mem_stamp_zeros hmem with ⟨_, hhigh⟩ | ⟨t, ht, _, hg⟩
        · grind
        · exact (List.pairwise_cons.1 hapart).1 t ht hne hg.symm
      grind

theorem StampedApart.shift (h : StampedApart segments)
    (count : ℕ) : StampedApart (segments.map fun s =>
      if s.generation = 0 then s else { s with generation := s.generation + count }) := by
  grind [StampedApart]

/-- **Stamping leaves the generations distinct**, and none of them zero. -/
theorem stamp_generations_spec (h : StampedApart segments) :
    ((stamp_generations segments).map ManagedSegmentInfo.generation).Nodup ∧
      ∀ s ∈ stamp_generations segments, s.generation ≠ 0 := by
  unfold stamp_generations
  dsimp only
  split
  · rename_i hcount
    have hne : ∀ s ∈ segments, s.generation ≠ 0 := by grind
    refine ⟨?_, hne⟩
    rw [List.nodup_iff_pairwise_ne, List.pairwise_map]
    exact List.Pairwise.imp_of_mem (fun hs _ hst => hst (hne _ hs)) h
  · have hpositive : ∀ {next : ℕ} {listed : List ManagedSegmentInfo},
        ∀ s ∈ stamp_zeros next listed, s.generation ≠ 0 := by
      intro next listed s hs
      rcases generation_of_mem_stamp_zeros (List.mem_map_of_mem hs) with ⟨hlow, _⟩ | ⟨t, _, hne, hg⟩
      · omega
      · omega
    refine ⟨?_, hpositive⟩
    split
    · grind [nodup_stamp_zeros, List.countP_eq_length]
    · -- the shift puts the stamped ones above the zeros' number
      set count := segments.countP fun s => s.generation = 0 with hcount
      refine nodup_stamp_zeros (fun s hs hne => ?_) (h.shift count)
      have hsame : ((segments.map fun s =>
          if s.generation = 0 then s else { s with generation := s.generation + count }).countP
            fun s => s.generation = 0) = count := by
        grind [List.countP_map, List.countP_congr]
      grind

/-! ## Files -/

theorem strip_end_append (tail stem : String) : strip_end tail (stem ++ tail) = some stem := by
  unfold strip_end
  simp

theorem findSome_strip_end {suffixes : List String} {primary : String} (stem : String)
    (hsorted : suffixes.Pairwise fun a b => b.length ≤ a.length) (hmem : primary ∈ suffixes)
    (halone : ∀ s ∈ suffixes, s ≠ primary → ¬ primary.toList <:+ s.toList) :
    (suffixes.findSome? fun tail => strip_end tail (stem ++ primary)) = some stem := by
  induction suffixes with
  | nil => exact absurd hmem List.not_mem_nil
  | cons s suffixes ih =>
    obtain ⟨hlonger, hsorted⟩ := List.pairwise_cons.1 hsorted
    rw [List.findSome?_cons]
    by_cases hs : s = primary
    · rw [hs, strip_end_append]
    · have hrest : primary ∈ suffixes := (List.mem_cons.1 hmem).resolve_left (Ne.symm hs)
      have hnone : strip_end s (stem ++ primary) = none := by
        refine if_neg fun hends => halone s List.mem_cons_self hs ?_
        rw [List.isSuffixOf_iff_suffix, String.toList_append] at hends
        refine List.suffix_of_suffix_length_le (List.suffix_append _ _) hends ?_
        exact hlonger primary hrest
      grind

namespace SegmentFileLayout

variable (layout : SegmentFileLayout)

theorem mem_ordered_suffixes {s : String} : s ∈ layout.ordered_suffixes ↔
    s = layout.primary ∨
      s ∈ layout.sidecars.flatMap (fun s => [s, s ++ ".tmp"]) ++ [layout.tmp, ".delmap"] := by
  unfold ordered_suffixes
  rw [List.mem_insertionSort]
  grind

theorem ordered_suffixes_sorted :
    layout.ordered_suffixes.Pairwise fun a b => b.length ≤ a.length := by
  exact List.pairwise_insertionSort _ _

theorem stem_of_primary (segment_id : String) :
    (layout.ordered_suffixes.findSome? fun tail =>
      strip_end tail (segment_id ++ layout.primary)) = some segment_id := by
  refine findSome_strip_end segment_id layout.ordered_suffixes_sorted
    ((layout.mem_ordered_suffixes).2 (Or.inl rfl)) fun s hs hne => ?_
  grind [primary_alone, mem_ordered_suffixes]

theorem primary_injective {a b : String} (h : a ++ layout.primary = b ++ layout.primary) :
    a = b := by
  grind [String.toList_append, String.toList_inj, List.append_cancel_right]

theorem primary_notMem_files {a b : String} (h : a ≠ b) : a ++ layout.primary ∉ layout.files b := by
  intro hmem
  obtain ⟨s, hs, hfile⟩ := List.mem_map.1 hmem
  rcases List.mem_cons.1 hs with rfl | hsidecar
  · exact h (layout.primary_injective hfile.symm)
  · have hlist := congrArg String.toList hfile
    rw [String.toList_append, String.toList_append] at hlist
    -- one of the two ends is the other's
    rcases List.suffix_or_suffix_of_suffix (hlist ▸ List.suffix_append b.toList s.toList)
      (List.suffix_append a.toList layout.primary.toList) with hends | hends
    · exact layout.sidecars_alone s hsidecar hends
    · refine layout.primary_alone s (List.mem_append_left _ ?_) hends
      grind

end SegmentFileLayout

namespace SegmentManager

variable {layout : SegmentFileLayout} {storage : SegmentStorage} {m : SegmentManager}
variable {segments : List ManagedSegmentInfo} {outcome : SaveOutcome} {id : String}

/-- **The sweep takes no listed segment's file.** -/
theorem is_orphan_file_primary (h : id ∈ segments.map ManagedSegmentInfo.segment_id) :
    is_orphan_file layout segments (id ++ layout.primary) = false := by
  have htmp : id ++ layout.primary ≠ "segments.json.tmp" := by
    grind [SegmentFileLayout.primary_alone, String.toList_append, List.suffix_append]
  unfold is_orphan_file
  rw [if_neg htmp, layout.stem_of_primary id]
  grind

theorem file_size_delete_files {gone : String → Bool} {undeleted : Finset String} {file : String}
    (h : gone file = false) :
    (delete_files storage gone undeleted).file_size file = storage.file_size file := by
  unfold delete_files
  grind

theorem load_state_segments (manifest : Option SegmentManifest) :
    (load_state manifest).segments = stamp_generations (manifest_segments manifest) := by
  rcases manifest with _ | _ | _ <;> rfl

theorem load_state_ids (manifest : Option SegmentManifest) :
    (load_state manifest).segments.map ManagedSegmentInfo.segment_id =
      (manifest_segments manifest).map ManagedSegmentInfo.segment_id := by
  rw [load_state_segments, segment_ids_stamp_generations]

theorem max_segment_id_le_next (manifest : Option SegmentManifest) :
    max_segment_id (load_state manifest).segments ≤ (load_state manifest).next_segment_id := by
  rcases manifest with _ | _ | _
  · exact Nat.zero_le _
  · exact Nat.le_refl _
  · exact Nat.le_max_right _ _

theorem load_state_saved (h : ∀ s ∈ segments, s.generation ≠ 0) :
    (load_state (m.save_state_locked segments storage .saved).2.manifest).segments = segments ∧
      (load_state (m.save_state_locked segments storage .saved).2.manifest).last_wal_seq =
        m.last_wal_seq :=
  ⟨(load_state_segments _).trans (stamp_generations_of_nonzero h), rfl⟩

theorem mem_load_state_ids_save
    (h : id ∈ (load_state (m.save_state_locked segments storage outcome).2.manifest).segments.map
      ManagedSegmentInfo.segment_id) :
    id ∈ segments.map ManagedSegmentInfo.segment_id ∨
      id ∈ (load_state storage.manifest).segments.map ManagedSegmentInfo.segment_id := by
  rw [load_state_ids] at h
  match outcome with
  | .saved => exact Or.inl h
  | .failed _ => exact Or.inr (by rw [load_state_ids]; exact h)

theorem file_size_save {file : String} (h : (storage.file_size file).isSome) :
    ((m.save_state_locked segments storage outcome).2.file_size file).isSome := by
  match outcome with
  | .saved => exact h
  | .failed staged =>
    unfold save_state_locked
    grind

theorem le_max_generation {s : ManagedSegmentInfo} (h : s ∈ segments) :
    s.generation ≤ max_generation segments := by
  unfold max_generation
  induction segments with
  | nil => exact absurd h List.not_mem_nil
  | cons t segments ih =>
    grind

theorem max_generation_mem (h : segments ≠ []) :
    ∃ s ∈ segments, s.generation = max_generation segments := by
  unfold max_generation
  induction segments with
  | nil => exact absurd rfl h
  | cons t segments ih =>
    by_cases hle : segments.foldr (fun s m => max s.generation m) 0 ≤ t.generation
    · grind
    · have hne : segments ≠ [] := by grind
      grind

end SegmentManager

end Laurus
