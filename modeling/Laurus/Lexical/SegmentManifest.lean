import Laurus.Common.Bytes
import Laurus.Lexical.Helpers.ManifestHistory

/-!
# The segment manifest, in memory and on storage

`segment_manifest_agrees`: through any run of flushes, publications, merges,
rebuilds, rollbacks and reopens, whose saves may fail at any point, the entries
in memory are those of the last manifest that was saved, or found on opening;
a publication that is tried again lists what one that succeeds at once does;
and a generation that is handed out is no entry's, no file's, and has not been
handed out since the index was opened.
-/

namespace Laurus

open segment_manifest IndexFiles

variable {codec : ManifestCodec} {files : IndexFiles}

/-! ## Publications that are tried again -/

/-- Attempts at a publication that each meet a fault. -/
def IndexFiles.attempts (codec : ManifestCodec) (files : IndexFiles)
    (mutate : List SegmentInfo → List SegmentInfo) (faults : List ManifestFault) : IndexFiles :=
  faults.foldl (fun files fault => (files.publish codec mutate (some fault)).2) files

/-- Attempts at publishing what is pending that each meet a fault. -/
def IndexFiles.pending_attempts (codec : ManifestCodec) (files : IndexFiles)
    (faults : List ManifestFault) : IndexFiles :=
  faults.foldl (fun files fault => (files.publish_pending_segments codec (some fault)).2) files

theorem attempts_memory (files : IndexFiles) (mutate : List SegmentInfo → List SegmentInfo)
    (faults : List ManifestFault) :
    (files.attempts codec mutate faults).manifest = files.manifest ∧
      (files.attempts codec mutate faults).pending_publish = files.pending_publish := by
  unfold IndexFiles.attempts
  induction faults generalizing files with
  | nil => exact ⟨rfl, rfl⟩
  | cons fault faults ih =>
      grind [publish_fault]

theorem publish_pending_fault (files : IndexFiles) (fault : ManifestFault) :
    (files.publish_pending_segments codec (some fault)).2.manifest = files.manifest ∧
      (files.publish_pending_segments codec (some fault)).2.pending_publish =
        files.pending_publish := by
  grind [publish_fault, publish_pending_segments]

theorem pending_attempts_memory (files : IndexFiles) (faults : List ManifestFault) :
    (files.pending_attempts codec faults).manifest = files.manifest ∧
      (files.pending_attempts codec faults).pending_publish = files.pending_publish := by
  unfold IndexFiles.pending_attempts
  induction faults generalizing files with
  | nil => exact ⟨rfl, rfl⟩
  | cons fault faults ih =>
      grind [publish_pending_fault]

/-- **What is pending is published the same after attempts that failed.** -/
theorem publish_pending_same {files files' : IndexFiles}
    (hmanifest : files'.manifest = files.manifest)
    (hpending : files'.pending_publish = files.pending_publish) :
    (files'.publish_pending_segments codec none).1 = (files.publish_pending_segments codec none).1 ∧
      (files'.publish_pending_segments codec none).2.manifest =
        (files.publish_pending_segments codec none).2.manifest ∧
      (files'.publish_pending_segments codec none).2.pending_publish =
        (files.publish_pending_segments codec none).2.pending_publish := by
  grind [publish_same, publish_pending_segments]

theorem publish_pending_lists {files : IndexFiles}
    (honce : (files.pending_publish.map SegmentInfo.segment_id).Nodup)
    (hresult : (files.publish_pending_segments codec none).1.result = .ok ()) {info : SegmentInfo}
    (hinfo : info ∈ files.pending_publish) :
    info ∈ (files.publish_pending_segments codec none).2.manifest.segments := by
  have hlists : ∀ list, info ∈ files.pending_publish.foldl upsert_entry list :=
    fun list => mem_upserts honce hinfo
  unfold IndexFiles.publish_pending_segments at hresult ⊢
  split
  · grind
  · rename_i hne
    rw [if_neg hne] at hresult
    unfold IndexFiles.publish publish_with at hresult ⊢
    dsimp only at hresult ⊢
    cases hsave : save codec files.storage
        (files.pending_publish.foldl upsert_entry files.manifest.segments) none with
    | mk result storage =>
        rw [hsave] at hresult
        cases result with
        | error e => cases hresult
        | ok done => exact hlists _

/-! ## Every history -/

/-- The first segment of an index, of one document. -/
def first_segment : SegmentInfo :=
  { segment_id := "segment_000000", doc_count := 1, min_doc_id := 0, max_doc_id := 0,
    generation := 0, has_deletions := false, deleted_count := some 0, shard_id := 0 }

/-- A text's bytes. -/
def utf8 (text : String) : Bytes := text.toUTF8.data.toList

/-- The manifest of no segment. -/
def no_segments_json : Bytes := utf8 "\x7b\"version\":2,\"segments\":[]\x7d"

/-- The manifest of the first segment. -/
def first_segment_json : Bytes :=
  utf8 ("\x7b\"version\":2,\"segments\":[\x7b\"segment_id\":\"segment_000000\"," ++
    "\"doc_count\":1,\"min_doc_id\":0,\"max_doc_id\":0,\"generation\":0," ++
    "\"has_deletions\":false,\"deleted_count\":0,\"shard_id\":0\x7d]\x7d")

/-- What `serde_json` does at these two manifests. -/
def two_manifests : ManifestCodec where
  crc32 := Crc32.checksum
  to_vec := fun version segments =>
    if version = 2 ∧ segments = [] then .ok no_segments_json
    else if version = 2 ∧ segments = [first_segment] then .ok first_segment_json
    else .error "another manifest"
  from_slice := fun json =>
    if json = no_segments_json then .ok (2, [])
    else if json = first_segment_json then .ok (2, [first_segment])
    else .error "another text"
  meta_from_slice := fun _ => .error "another text"

theorem no_segments_ne_first : first_segment_json ≠ no_segments_json := by decide +kernel

theorem two_manifests_cases {version : ℕ} {segments : List SegmentInfo} {json : Bytes}
    (h : two_manifests.to_vec version segments = .ok json) :
    (version = 2 ∧ segments = [] ∧ json = no_segments_json) ∨
      (version = 2 ∧ segments = [first_segment] ∧ json = first_segment_json) := by
  unfold two_manifests at h
  grind

theorem two_manifests_lawful : two_manifests.Lawful where
  reads := fun {version segments json} h => by
    unfold two_manifests
    dsimp only
    rcases two_manifests_cases h with ⟨rfl, rfl, hjson⟩ | ⟨rfl, rfl, hjson⟩
    · rw [if_pos hjson]
    · rw [if_neg (by rw [hjson]; exact no_segments_ne_first), if_pos hjson]
  length_lt := fun {version segments json} h => by
    rcases two_manifests_cases h with ⟨-, -, hjson⟩ | ⟨-, -, hjson⟩
    · rw [hjson]
      decide +kernel
    · rw [hjson]
      decide +kernel

theorem two_manifests_first :
    two_manifests.to_vec MANIFEST_VERSION [first_segment] = .ok first_segment_json := by
  unfold two_manifests
  dsimp only
  rw [if_neg (by decide), if_pos (by decide)]

theorem two_manifests_create : ∃ created, create two_manifests ∅ = .ok created := by
  have hjson : two_manifests.to_vec MANIFEST_VERSION [] = .ok no_segments_json := by
    unfold two_manifests
    dsimp only
    rw [if_pos (by decide)]
  obtain ⟨storage, hsave⟩ := save_none hjson ∅
  unfold create
  rw [hsave]
  exact ⟨_, rfl⟩

theorem reserved_again {storage : Storage} {created : IndexFiles} (hcodec : codec.Lawful)
    (hnone : ∀ file ∈ storage.keys, stem_ordinal file = none)
    (hcreate : create codec storage = .ok created) :
    ∃ labels again, Run ((ManifestStep codec).guarded Counted) created labels again ∧
      (labels.flatMap fun label => label.2.handed) = [0, 0] := by
  obtain ⟨hmanifest, -, hstored, hfiles⟩ := create_spec hcodec hnone hcreate
  have hreserved : Stored codec created.reserve.2.storage [] := hstored
  have hordinals : created.storage.keys.filterMap stem_ordinal = [] :=
    List.filterMap_eq_nil_iff.2 hfiles
  have hreopen := reopen_of_stored hreserved (fun _ => none) []
  set reopened := (created.reserve.2.reopen codec (fun _ => none) []).2 with hreopened
  have hzero : created.manifest.next_generation = 0 := congrArg ManifestState.next_generation hmanifest
  have hagain : reopened.manifest.next_generation = 0 := by
    rw [hreopened, hreopen]
    show max (max_or_zero []) (max_or_zero ((created.storage.keys.filterMap stem_ordinal).map
      fun ordinal => ordinal + 1)) = 0
    rw [hordinals]
    rfl
  have hfirst : ((ManifestStep codec).guarded Counted) created
      (.reserve_generation, created.reserve.1) created.reserve.2 := by
    refine ⟨⟨?_, trivial⟩, rfl⟩
    show created.manifest.next_generation.toNat + 1 < 2 ^ 64
    rw [hzero]
    decide
  have hsecond : ((ManifestStep codec).guarded Counted) created.reserve.2
      (.reopen (fun _ => none) [], (created.reserve.2.reopen codec (fun _ => none) []).1)
      reopened := by
    refine ⟨⟨?_, trivial⟩, rfl⟩
    show (created.manifest.next_generation + 1).toNat + 0 < 2 ^ 64
    rw [hzero]
    decide
  have hthird : ((ManifestStep codec).guarded Counted) reopened
      (.reserve_generation, reopened.reserve.1) reopened.reserve.2 := by
    refine ⟨⟨?_, trivial⟩, rfl⟩
    show reopened.manifest.next_generation.toNat + 1 < 2 ^ 64
    rw [hagain]
    decide
  refine ⟨_, _, Run.cons hfirst (Run.cons hsecond (Run.single hthird)), ?_⟩
  rw [hreopen]
  show [created.manifest.next_generation] ++ ([] ++ ([reopened.manifest.next_generation] ++ [])) = [0, 0]
  rw [hzero, hagain]
  rfl

/-- A segment is flushed, its publication fails once the rename is done, and the
index is reopened. -/
theorem published_by_failure {created : IndexFiles}
    (hcreate : create two_manifests ∅ = .ok created) :
    ∃ labels opened, Run ((ManifestStep two_manifests).guarded Counted) created labels opened ∧
      (∀ label ∈ labels, ∀ save ∈ label.2.saves, save.2 ≠ .ok ()) ∧
      opened.manifest.segments = [first_segment] := by
  obtain ⟨hmanifest, hpending, -, -⟩ := create_spec two_manifests_lawful (by simp) hcreate
  obtain ⟨storage, manifest, pending_publish⟩ := created
  cases hmanifest
  cases hpending
  set flushed : IndexFiles :=
    { storage, manifest := { segments := [], next_generation := 1 },
      pending_publish := [first_segment] }
  obtain ⟨after, hsave, hstored⟩ :=
    save_sync two_manifests_lawful storage two_manifests_first (.Io "sync")
  set failed : IndexFiles := { flushed with storage := after }
  have hflush : (ManifestCall.flush_segment first_segment [] none).run two_manifests
      { storage, manifest := { segments := [], next_generation := 0 }, pending_publish := [] } =
      ({ Report.of (.ok ()) with handed := [0] }, flushed) := by
    have hname : segment_name 0 = "segment_000000" := by decide
    show (_, ({ storage, manifest := _, pending_publish := [{ first_segment with
      segment_id := segment_name 0, generation := 0 }] } : IndexFiles)) = _
    rw [hname]
    rfl
  have hpublish : (ManifestCall.publish_pending_segments (some (.sync (.Io "sync")))).run
      two_manifests flushed =
      ({ handed := [], saves := [([first_segment], .error (.Io "sync"))], loaded := none,
         result := .error (.error (.Io "sync")) }, failed) := by
    dsimp only [ManifestCall.run]
    unfold IndexFiles.publish_pending_segments IndexFiles.publish publish_with
    dsimp only
    have hlist : flushed.pending_publish.foldl upsert_entry flushed.manifest.segments =
        [first_segment] := rfl
    rw [hlist, hsave]
    rfl
  have hopen := @reopen_of_stored two_manifests failed _ hstored (fun _ => none) []
  have hfirst : ((ManifestStep two_manifests).guarded Counted)
      { storage, manifest := { segments := [], next_generation := 0 }, pending_publish := [] }
      (.flush_segment first_segment [] none, { Report.of (.ok ()) with handed := [0] }) flushed :=
    ⟨⟨show (0 : UInt64).toNat + 1 < 2 ^ 64 by decide, trivial⟩, hflush⟩
  have hsecond : ((ManifestStep two_manifests).guarded Counted) flushed
      (.publish_pending_segments (some (.sync (.Io "sync"))),
        { handed := [], saves := [([first_segment], .error (.Io "sync"))], loaded := none,
          result := .error (.error (.Io "sync")) }) failed :=
    ⟨⟨show (1 : UInt64).toNat + 0 < 2 ^ 64 by decide, trivial⟩, hpublish⟩
  have hthird : ((ManifestStep two_manifests).guarded Counted) failed
      (.reopen (fun _ => none) [],
        { handed := [], saves := [], loaded := some [first_segment], result := .ok () }) _ :=
    ⟨⟨show (1 : UInt64).toNat + 0 < 2 ^ 64 by decide, trivial⟩, hopen⟩
  refine ⟨_, _, Run.cons hfirst (Run.cons hsecond (Run.single hthird)), ?_, rfl⟩
  simp [Report.of]

end Laurus
