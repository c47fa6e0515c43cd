import Laurus.Common.Bytes
import Laurus.Lexical.Model.IndexFiles
import Laurus.Storage.Manifest
import Mathlib.Data.List.TakeWhile

/-!
# What a save, a publication and an opening leave

A save that fails leaves the manifest on storage as it was, or, where the
rename was done, leaves the new one; in memory nothing changes then. What the
counter starts at on opening is past every entry and every file.
-/

namespace Laurus

/-!
## Ordinals in the names of segments

The name of a segment gives back the generation it was made of, and so does
the name of each of its files.
-/

theorem toList_file_of_segment (segment_id suffix : String) :
    (file_of_segment segment_id suffix).toList = segment_id.toList ++ '.' :: suffix.toList := by
  unfold file_of_segment
  simp

theorem stem_file_of_segment (segment_id suffix : String) :
    stem (file_of_segment segment_id suffix) = stem segment_id := by
  grind [stem, toList_file_of_segment, List.takeWhile_append, List.takeWhile_prefix,
    List.takeWhile_cons_of_neg]

theorem stem_ordinal_file_of_segment (segment_id suffix : String) :
    stem_ordinal (file_of_segment segment_id suffix) = stem_ordinal segment_id := by
  unfold stem_ordinal stem_digits
  rw [stem_file_of_segment]

theorem stem_ordinal_of_file {file segment_id : String} (h : is_file_of file segment_id = true) :
    stem_ordinal file = stem_ordinal segment_id := by
  obtain ⟨rest, hrest⟩ := List.isPrefixOf_iff_prefix.1 h
  have hfile : file = file_of_segment segment_id (String.ofList rest) := by
    unfold file_of_segment
    rw [← String.toList_inj, String.toList_append, String.toList_ofList, hrest]
  rw [hfile, stem_ordinal_file_of_segment]

theorem stem_of_no_dot {name : String} (h : '.' ∉ name.toList) : stem name = name.toList := by
  unfold stem
  rw [List.takeWhile_eq_self_iff]
  grind

theorem strip_leading_append (first : String) (chars : List Char) :
    strip_leading first (first.toList ++ chars) = some chars := by
  simp [strip_leading, String.length_toList]

theorem parse_ordinal_toDigits (zeros : ℕ) (generation : UInt64) :
    parse_ordinal (List.replicate zeros '0' ++ Nat.toDigits 10 generation.toNat) =
      some generation := by
  unfold parse_ordinal
  have hvalue : Nat.ofDigitChars 10 (List.replicate zeros '0' ++ Nat.toDigits 10 generation.toNat) 0 =
      generation.toNat := by
    rw [Nat.ofDigitChars_append, Nat.ofDigitChars_replicate_zero, Nat.mul_zero,
      Nat.ofDigitChars_ten_toDigits]
  dsimp only
  rw [hvalue, if_pos generation.toNat_lt, UInt64.ofNat_toNat]

theorem isDigit_padded {zeros n : ℕ} {c : Char}
    (h : c ∈ List.replicate zeros '0' ++ Nat.toDigits 10 n) : c.isDigit = true := by
  rcases List.mem_append.1 h with hzero | hdigit
  · rw [(List.mem_replicate.1 hzero).2]
    rfl
  · exact Nat.isDigit_of_mem_toDigits (by decide) (by decide) hdigit

theorem padded_ne_nil (zeros n : ℕ) : List.replicate zeros '0' ++ Nat.toDigits 10 n ≠ [] :=
  List.append_ne_nil_of_right_ne_nil _ (List.ne_nil_of_length_pos Nat.length_toDigits_pos)

theorem stem_ordinal_of_form {first : String} (hfirst : first = "segment_" ∨ first = "merged_")
    (zeros : ℕ) (generation : UInt64) :
    stem_ordinal (first ++ String.ofList
      (List.replicate zeros '0' ++ Nat.toDigits 10 generation.toNat)) = some generation := by
  set digits := List.replicate zeros '0' ++ Nat.toDigits 10 generation.toNat with hdigits
  have hlist : (first ++ String.ofList digits).toList = first.toList ++ digits := by simp
  have hdot : '.' ∉ (first ++ String.ofList digits).toList := by
    rw [hlist, List.mem_append]
    rintro (hin | hin)
    · rcases hfirst with rfl | rfl <;> exact absurd hin (by decide)
    · exact absurd (isDigit_padded hin) (by decide)
  have hall : digits.all Char.isDigit = true := List.all_eq_true.2 fun c hc => isDigit_padded hc
  have hstrip : (strip_leading "segment_" (first.toList ++ digits)).or
      (strip_leading "merged_" (first.toList ++ digits)) = some digits := by
    rcases hfirst with rfl | rfl
    · rw [strip_leading_append, Option.some_or]
    · rw [strip_leading_append]
      simp [strip_leading]
  unfold stem_ordinal stem_digits
  dsimp only
  rw [stem_of_no_dot hdot, hlist, hstrip]
  dsimp only
  have hnone : ¬ (digits = [] ∨ ¬ digits.all Char.isDigit = true) := by
    grind [padded_ne_nil]
  rw [if_neg hnone, Option.bind_some, hdigits, parse_ordinal_toDigits]

/-- **A flushed segment is named after its generation.** -/
theorem stem_ordinal_segment_name (generation : UInt64) :
    stem_ordinal (segment_name generation) = some generation :=
  stem_ordinal_of_form (Or.inl rfl) _ generation

/-- **A merged one is, too.** -/
theorem stem_ordinal_merged_name (generation : UInt64) :
    stem_ordinal (merged_name generation) = some generation :=
  stem_ordinal_of_form (Or.inr rfl) 0 generation

theorem stem_ordinal_manifest : stem_ordinal MANIFEST_FILE = none := by decide

theorem stem_ordinal_manifest_tmp : stem_ordinal (MANIFEST_FILE ++ TMP_SUFFIX) = none := by decide

section SegmentManifest

open segment_manifest IndexFiles

/-- What is relied on of `serde_json`: it reads back what it writes; and a
`Vec` is at most `isize::MAX` bytes long. -/
structure ManifestCodec.Lawful (codec : ManifestCodec) : Prop where
  reads : ∀ {version segments json}, codec.to_vec version segments = .ok json →
    codec.from_slice json = .ok (version, segments)
  length_lt : ∀ {version segments json}, codec.to_vec version segments = .ok json →
    json.length < 2 ^ 63

/-! ## Saving -/

theorem append_tmp_ne (name : String) : name ++ TMP_SUFFIX ≠ name := by
  intro h
  have hlen := congrArg (fun s : String => s.toList.length) h
  simp only [String.toList_append, List.length_append] at hlen
  have htmp : TMP_SUFFIX.toList.length = 4 := rfl
  omega

/-- The files of a storage are those of another, or the two of a name. -/
def KeysFrom (name : String) (s s' : Storage) : Prop :=
  ∀ file ∈ s'.keys, file ∈ s.keys ∨ file = name ∨ file = name ++ TMP_SUFFIX

variable {s : Storage} {name file : String} {segments : List SegmentInfo} {json : Bytes}
  {next : UInt64} {list : List SegmentInfo} {info : SegmentInfo} {storage : Storage}

theorem mem_keys_insert {bytes : Bytes} :
    file ∈ (AList.insert name bytes s).keys ↔ file = name ∨ file ∈ s.keys :=
  AList.mem_insert s

theorem mem_keys_erase (h : file ∈ (AList.erase name s).keys) :
    file ∈ s.keys :=
  (AList.mem_erase.1 h).2

/-- Where the rename is done. -/
def renamed (s : Storage) (name : String) (bytes : Bytes) : Storage :=
  AList.insert name bytes (AList.erase (name ++ TMP_SUFFIX)
    (AList.insert (name ++ TMP_SUFFIX) bytes s))

theorem keysFrom_insert_tmp (s : Storage) (name : String) (bytes : Bytes) :
    KeysFrom name s (AList.insert (name ++ TMP_SUFFIX) bytes s) := by
  intro file hfile
  grind [mem_keys_insert]

theorem keysFrom_renamed (s : Storage) (name : String) (bytes : Bytes) :
    KeysFrom name s (renamed s name bytes) := by
  intro file hfile
  rcases mem_keys_insert.1 hfile with h | h
  · exact Or.inr (Or.inl h)
  · exact keysFrom_insert_tmp s name bytes file (mem_keys_erase h)

/-- What a save of bytes comes to. -/
inductive SavedBytes (s : Storage) (name : String) (bytes : Bytes) :
    Option ManifestFault → Except LaurusError Unit × Storage → Prop
  | saved {s' : Storage} (hlookup : AList.lookup name s' = some bytes) (hkeys : KeysFrom name s s') :
      SavedBytes s name bytes none (.ok (), s')
  | failed (fault : ManifestFault) (e : LaurusError) {s' : Storage}
      (hlookup : AList.lookup name s' = AList.lookup name s ∨ AList.lookup name s' = some bytes)
      (hkeys : KeysFrom name s s') : SavedBytes s name bytes (some fault) (.error e, s')

theorem save_bytes_spec (s : Storage) (name : String) (bytes : Bytes)
    (fault : Option ManifestFault) : SavedBytes s name bytes fault (s.save_bytes name bytes fault) := by
  have htmp : ∀ written : Bytes, AList.lookup name (AList.insert (name ++ TMP_SUFFIX) written s) =
      AList.lookup name s := fun written => AList.lookup_insert_ne (append_tmp_ne name).symm
  have hrenamed : AList.lookup name (renamed s name bytes) = some bytes := AList.lookup_insert _
  have hself : KeysFrom name s s := fun file hfile => Or.inl hfile
  match fault with
  | none =>
      have heq : s.save_bytes name bytes none = (.ok (), renamed s name bytes) := by
        simp [Storage.save_bytes, Storage.create, Storage.rename, renamed]
      rw [heq]
      exact SavedBytes.saved hrenamed (keysFrom_renamed s name bytes)
  | some (.write (.create e)) => exact SavedBytes.failed _ e (Or.inl rfl) hself
  | some (.write (.write e written)) =>
      exact SavedBytes.failed _ e (Or.inl (htmp _)) (keysFrom_insert_tmp s name _)
  | some (.rename e) =>
      exact SavedBytes.failed _ e (Or.inl (htmp _)) (keysFrom_insert_tmp s name _)
  | some (.sync e) =>
      have heq : s.save_bytes name bytes (some (.sync e)) = (.error e, renamed s name bytes) := by
        simp [Storage.save_bytes, Storage.create, Storage.rename, renamed]
      rw [heq]
      exact SavedBytes.failed _ e (Or.inr hrenamed) (keysFrom_renamed s name bytes)

theorem save_checksummed_eq (crc32 : Bytes → UInt32) (s : Storage) (name : String)
    (magic : Option UInt32) (payload : Bytes) (fault : Option ManifestFault) :
    s.save_checksummed crc32 name magic payload fault =
      s.save_bytes name (framedFile crc32 magic payload) fault := by
  obtain ⟨w, hwrite, hclose⟩ := write_manifest_closes crc32 magic payload
  grind [Storage.save_checksummed]

variable {codec : ManifestCodec}

/-- The manifest on storage. -/
def Stored (codec : ManifestCodec) (storage : Storage) (segments : List SegmentInfo) : Prop :=
  load codec storage = .ok (some (MANIFEST_VERSION, segments))

theorem load_congr {s' : Storage}
    (h : AList.lookup MANIFEST_FILE s' = AList.lookup MANIFEST_FILE s) :
    load codec s' = load codec s := by
  unfold load Storage.load_checksummed
  rw [h]

theorem stored_of_lookup (hcodec : codec.Lawful) (hjson : codec.to_vec MANIFEST_VERSION segments = .ok json)
    (h : AList.lookup MANIFEST_FILE s = some (framedFile codec.crc32 none json)) :
    Stored codec s segments := by
  unfold Stored load Storage.load_checksummed
  rw [h]
  dsimp only
  rw [load_framedFile codec.crc32 MANIFEST_FILE none (hcodec.length_lt hjson)]
  dsimp only
  rw [hcodec.reads hjson]

/-- What a save of a manifest comes to: it is saved, or the one before is
left, or it is there all the same. -/
inductive Saved (codec : ManifestCodec) (storage : Storage) (segments : List SegmentInfo) :
    Except LaurusError Unit × Storage → Prop
  | saved {storage' : Storage} (hstored : Stored codec storage' segments)
      (hkeys : KeysFrom MANIFEST_FILE storage storage') :
      Saved codec storage segments (.ok (), storage')
  | failed (e : LaurusError) {storage' : Storage}
      (hstored : load codec storage' = load codec storage ∨ Stored codec storage' segments)
      (hkeys : KeysFrom MANIFEST_FILE storage storage') :
      Saved codec storage segments (.error e, storage')

theorem save_spec (hcodec : codec.Lawful) (storage : Storage) (segments : List SegmentInfo)
    (fault : Option ManifestFault) :
    Saved codec storage segments (save codec storage segments fault) := by
  unfold save
  cases hjson : codec.to_vec MANIFEST_VERSION segments with
  | error e => exact Saved.failed _ (Or.inl rfl) fun file hfile => Or.inl hfile
  | ok json =>
      dsimp only
      rw [save_checksummed_eq]
      generalize hout : storage.save_bytes MANIFEST_FILE (framedFile codec.crc32 none json)
        fault = out
      have hsaved := save_bytes_spec storage MANIFEST_FILE (framedFile codec.crc32 none json) fault
      rw [hout] at hsaved
      cases hsaved with
      | saved hlookup hkeys => exact Saved.saved (stored_of_lookup hcodec hjson hlookup) hkeys
      | failed fault e hlookup hkeys =>
          exact Saved.failed e (hlookup.imp load_congr (stored_of_lookup hcodec hjson)) hkeys

theorem save_none_result (storage storage' : Storage) (segments : List SegmentInfo) :
    (save codec storage segments none).1 = (save codec storage' segments none).1 := by
  unfold save
  cases codec.to_vec MANIFEST_VERSION segments with
  | error e => rfl
  | ok json =>
      dsimp only
      rfl

theorem save_fault_result (storage : Storage) (segments : List SegmentInfo) (fault : ManifestFault) :
    ∃ e, (save codec storage segments (some fault)).1 = .error e := by
  unfold save
  cases codec.to_vec MANIFEST_VERSION segments with
  | error e => exact ⟨_, rfl⟩
  | ok json =>
      dsimp only
      rw [save_checksummed_eq]
      generalize hout : storage.save_bytes MANIFEST_FILE (framedFile codec.crc32 none json)
        (some fault) = out
      have hsaved := save_bytes_spec storage MANIFEST_FILE (framedFile codec.crc32 none json)
        (some fault)
      rw [hout] at hsaved
      cases hsaved with
      | failed fault e hlookup hkeys => exact ⟨e, rfl⟩

theorem save_none
    (hjson : codec.to_vec MANIFEST_VERSION segments = .ok json) (storage : Storage) :
    ∃ storage', save codec storage segments none = (.ok (), storage') := by
  unfold save
  rw [hjson]
  dsimp only
  rw [save_checksummed_eq]
  simp [Storage.save_bytes, Storage.create, Storage.rename]

/-- A save that fails once the rename is done leaves the manifest all the same. -/
theorem save_sync (hcodec : codec.Lawful) (storage : Storage) (hjson : codec.to_vec MANIFEST_VERSION segments = .ok json) (e : LaurusError) :
    ∃ storage', save codec storage segments (some (.sync e)) = (.error e, storage') ∧
      Stored codec storage' segments := by
  refine ⟨renamed storage MANIFEST_FILE (framedFile codec.crc32 none json), ?_,
    stored_of_lookup hcodec hjson (AList.lookup_insert _)⟩
  unfold save
  rw [hjson]
  dsimp only
  rw [save_checksummed_eq]
  simp [Storage.save_bytes, Storage.create, Storage.rename, renamed]

/-! ## Publishing -/

/-- What a publication comes to. -/
inductive Published (codec : ManifestCodec) (files : IndexFiles) (candidate : List SegmentInfo) :
    Report × IndexFiles → Prop
  | saved {storage : Storage} (hstored : Stored codec storage candidate)
      (hkeys : KeysFrom MANIFEST_FILE files.storage storage) :
      Published codec files candidate
        ({ handed := [], saves := [(candidate, .ok ())], loaded := none, result := .ok () },
          { files with storage, manifest := { files.manifest with segments := candidate } })
  | failed (e : LaurusError) {storage : Storage}
      (hstored : load codec storage = load codec files.storage ∨ Stored codec storage candidate)
      (hkeys : KeysFrom MANIFEST_FILE files.storage storage) :
      Published codec files candidate
        ({ handed := [], saves := [(candidate, .error e)], loaded := none,
           result := .error (.error e) }, { files with storage })

theorem publish_spec (hcodec : codec.Lawful) (files : IndexFiles)
    (mutate : List SegmentInfo → List SegmentInfo) (fault : Option ManifestFault) :
    Published codec files (mutate files.manifest.segments) (files.publish codec mutate fault) := by
  unfold IndexFiles.publish publish_with
  dsimp only
  generalize hout : save codec files.storage (mutate files.manifest.segments) fault = out
  have hsaved := save_spec hcodec files.storage (mutate files.manifest.segments) fault
  rw [hout] at hsaved
  cases hsaved with
  | saved hstored hkeys => exact Published.saved hstored hkeys
  | failed e hstored hkeys => exact Published.failed e hstored hkeys

theorem publish_fault (files : IndexFiles) (mutate : List SegmentInfo → List SegmentInfo)
    (fault : ManifestFault) :
    (∃ e, (files.publish codec mutate (some fault)).1.result = .error e) ∧
      (files.publish codec mutate (some fault)).2.manifest = files.manifest ∧
      (files.publish codec mutate (some fault)).2.pending_publish = files.pending_publish := by
  obtain ⟨e, he⟩ := @save_fault_result codec files.storage
    (mutate files.manifest.segments) fault
  unfold IndexFiles.publish publish_with
  dsimp only
  generalize save codec files.storage (mutate files.manifest.segments) (some fault) = out at he
  obtain ⟨result, storage⟩ := out
  cases he
  exact ⟨⟨_, rfl⟩, rfl, rfl⟩

theorem publish_same {files files' : IndexFiles} (mutate : List SegmentInfo → List SegmentInfo)
    (hmanifest : files'.manifest = files.manifest)
    (hpending : files'.pending_publish = files.pending_publish) :
    (files'.publish codec mutate none).1 = (files.publish codec mutate none).1 ∧
      (files'.publish codec mutate none).2.manifest = (files.publish codec mutate none).2.manifest ∧
      (files'.publish codec mutate none).2.pending_publish =
        (files.publish codec mutate none).2.pending_publish := by
  have hsame := @save_none_result codec files'.storage files.storage
    (mutate files.manifest.segments)
  unfold IndexFiles.publish publish_with
  grind

/-! ## Lists of entries -/

/-- Entries that are named after their generations, all below `next`, each
listed once. -/
structure Listed (next : UInt64) (list : List SegmentInfo) : Prop where
  named : ∀ info ∈ list, stem_ordinal info.segment_id = some info.generation
  below : ∀ info ∈ list, info.generation < next
  once : (list.map SegmentInfo.segment_id).Nodup

theorem Listed.nil (next : UInt64) : Listed next [] where
  named := fun _ hmem => absurd hmem List.not_mem_nil
  below := fun _ hmem => absurd hmem List.not_mem_nil
  once := List.nodup_nil

theorem Listed.mono {next' : UInt64} (h : Listed next list)
    (hle : next ≤ next') : Listed next' list where
  named := h.named
  below := fun info hmem => UInt64.lt_of_lt_of_le (h.below info hmem) hle
  once := h.once

/-- The name and the generation of an entry. -/
def name_and_generation (info : SegmentInfo) : String × UInt64 := (info.segment_id, info.generation)

theorem Listed.congr {list' : List SegmentInfo} (h : Listed next list)
    (hsame : list'.map name_and_generation = list.map name_and_generation) : Listed next list' := by
  have hold : ∀ info ∈ list', ∃ old ∈ list, old.segment_id = info.segment_id ∧
      old.generation = info.generation := by
    intro info hmem
    have hin : name_and_generation info ∈ list.map name_and_generation :=
      hsame ▸ List.mem_map_of_mem hmem
    obtain ⟨old, hold, heq⟩ := List.mem_map.1 hin
    exact ⟨old, hold, congrArg Prod.fst heq, congrArg Prod.snd heq⟩
  refine ⟨fun info hmem => ?_, fun info hmem => ?_, ?_⟩
  · grind [named]
  · grind [below]
  · have hids : list'.map SegmentInfo.segment_id = list.map SegmentInfo.segment_id := by
      have hfst := congrArg (List.map Prod.fst) hsame
      rwa [List.map_map, List.map_map] at hfst
    rw [hids]
    exact h.once

theorem Listed.filter (h : Listed next list)
    (p : SegmentInfo → Bool) : Listed next (list.filter p) where
  named := fun info hmem => h.named info (List.mem_of_mem_filter hmem)
  below := fun info hmem => h.below info (List.mem_of_mem_filter hmem)
  once := h.once.sublist (List.filter_sublist.map SegmentInfo.segment_id)

theorem Listed.append (h : Listed next list) (hnamed : stem_ordinal info.segment_id = some info.generation)
    (hbelow : info.generation < next) (hnew : ∀ old ∈ list, old.segment_id ≠ info.segment_id) :
    Listed next (list ++ [info]) where
  named := fun other hmem => by
    grind [named]
  below := fun other hmem => by
    grind [below]
  once := by
    rw [List.map_append, List.map_singleton, List.nodup_append]
    refine ⟨h.once, List.nodup_singleton _, ?_⟩
    grind

theorem upsert_entry_cases (list : List SegmentInfo) (info : SegmentInfo) :
    (∃ i, ∃ h : i < list.length, list[i].segment_id = info.segment_id ∧
      upsert_entry list info = list.set i info) ∨
    ((∀ old ∈ list, old.segment_id ≠ info.segment_id) ∧ upsert_entry list info = list ++ [info]) := by
  unfold upsert_entry
  cases hfind : list.findIdx? fun entry => entry.segment_id = info.segment_id with
  | some i =>
      obtain ⟨hi, hid, -⟩ := List.findIdx?_eq_some_iff_getElem.1 hfind
      grind
  | none =>
      grind

theorem Listed.upsert (h : Listed next list) (hnamed : stem_ordinal info.segment_id = some info.generation)
    (hbelow : info.generation < next) : Listed next (upsert_entry list info) := by
  rcases upsert_entry_cases list info with ⟨i, hi, hid, heq⟩ | ⟨hnew, heq⟩
  · rw [heq]
    -- the entry that is replaced has the same name, and so the same generation
    have hgeneration : list[i].generation = info.generation := by
      have hold := h.named list[i] (List.getElem_mem hi)
      grind
    refine h.congr ?_
    have hsame : name_and_generation list[i] = name_and_generation info := Prod.ext hid hgeneration
    refine List.ext_getElem? fun j => ?_
    grind
  · rw [heq]
    exact h.append hnamed hbelow hnew

theorem Listed.upserts {infos : List SegmentInfo} (h : Listed next list)
    (hinfos : ∀ info ∈ infos, stem_ordinal info.segment_id = some info.generation ∧
      info.generation < next) : Listed next (infos.foldl upsert_entry list) := by
  induction infos generalizing list with
  | nil => exact h
  | cons info infos ih =>
      grind [upsert]

theorem mem_upsert_self (list : List SegmentInfo) (info : SegmentInfo) :
    info ∈ upsert_entry list info := by
  grind [upsert_entry_cases, List.mem_set]

theorem mem_upsert_of_ne {other : SegmentInfo} (hmem : other ∈ list)
    (hne : other.segment_id ≠ info.segment_id) : other ∈ upsert_entry list info := by
  grind [upsert_entry_cases, List.mem_iff_getElem]

/-- Each of several entries of different names is there once all are entered. -/
theorem mem_upserts {infos : List SegmentInfo}
    (honce : (infos.map SegmentInfo.segment_id).Nodup) (hmem : info ∈ infos) :
    info ∈ infos.foldl upsert_entry list := by
  have hkept : ∀ (rest list : List SegmentInfo), info ∈ list →
      (∀ other ∈ rest, info.segment_id ≠ other.segment_id) → info ∈ rest.foldl upsert_entry list := by
    intro rest
    induction rest with
    | nil => exact fun list hin _ => hin
    | cons other rest ih =>
        grind [mem_upsert_of_ne]
  induction infos generalizing list with
  | nil => cases hmem
  | cons first infos ih =>
      rw [List.map_cons, List.nodup_cons] at honce
      rcases List.mem_cons.1 hmem with rfl | hrest
      · grind [mem_upsert_self]
      · exact ih honce.2 hrest

theorem Listed.flips (h : Listed next list)
    (counts : List (String × Option UInt64)) : Listed next (counts.foldl flip_entry list) := by
  induction counts generalizing list with
  | nil => exact h
  | cons count counts ih =>
      refine ih (h.congr ?_)
      unfold flip_entry
      refine List.ext_getElem? fun j => ?_
      rw [List.getElem?_map, List.getElem?_map, List.getElem?_modify]
      split
      · cases list[j]? with
        | none => rfl
        | some info => rfl
      simp

theorem recounted_names (recount : SegmentInfo → Option UInt64) (list : List SegmentInfo) :
    (recount_unrecorded_deletions recount list).map name_and_generation =
      list.map name_and_generation := by
  unfold recount_unrecorded_deletions
  rw [List.map_map]
  refine List.map_congr_left fun info _ => ?_
  dsimp only [Function.comp]
  split
  · rfl
  · rfl

theorem Listed.recounted (h : Listed next list)
    (recount : SegmentInfo → Option UInt64) :
    Listed next (recount_unrecorded_deletions recount list) :=
  h.congr (recounted_names recount list)

/-! ## The counter -/

theorem le_max (a b : UInt64) : a ≤ max a b ∧ b ≤ max a b := by
  show a ≤ (if a ≤ b then b else a) ∧ b ≤ (if a ≤ b then b else a)
  grind

theorem le_max_or_zero {numbers : List UInt64} {n : UInt64} (h : n ∈ numbers) :
    n ≤ max_or_zero numbers := by
  have hgrow : ∀ (numbers : List UInt64) (start : UInt64), start ≤ numbers.foldl max start := by
    intro numbers
    induction numbers with
    | nil => exact fun start => UInt64.le_refl start
    | cons first numbers ih =>
        exact fun start => UInt64.le_trans (le_max start first).1 (ih _)
  unfold max_or_zero
  generalize (0 : UInt64) = start
  induction numbers generalizing start with
  | nil => cases h
  | cons first numbers ih =>
      grind [le_max]

/-- **The counter of an index that is opened is past every entry**, where none
is at the greatest number. -/
theorem lt_derive_of_entry {entries : List SegmentInfo} {files : List String}
    (h : info ∈ entries) (hmax : info.generation ≠ MAX_SEQ) :
    info.generation < derive_next_generation entries files := by
  have hmem : info.generation + 1 ∈ entries.map fun s => s.generation + 1 := List.mem_map_of_mem h
  refine UInt64.lt_of_lt_of_le (lt_succ hmax) ?_
  exact UInt64.le_trans (le_max_or_zero hmem) (le_max _ _).1

/-- **And past every file.** -/
theorem lt_derive_of_file {entries : List SegmentInfo} {files : List String}
    {ordinal : UInt64} (h : file ∈ files) (hordinal : stem_ordinal file = some ordinal)
    (hmax : ordinal ≠ MAX_SEQ) : ordinal < derive_next_generation entries files := by
  have hmem : ordinal + 1 ∈ (files.filterMap stem_ordinal).map fun ordinal => ordinal + 1 :=
    List.mem_map_of_mem (List.mem_filterMap.2 ⟨file, h, hordinal⟩)
  refine UInt64.lt_of_lt_of_le (lt_succ hmax) ?_
  exact UInt64.le_trans (le_max_or_zero hmem) (le_max _ _).2

theorem reserve_each_spec (files : IndexFiles) {n : ℕ}
    (hroom : files.manifest.next_generation.toNat + n < 2 ^ 64) :
    let out := files.reserve_each n
    (∀ g ∈ out.1, files.manifest.next_generation ≤ g ∧ g < out.2.manifest.next_generation) ∧
      out.1.Nodup ∧
      out.2.manifest.next_generation.toNat = files.manifest.next_generation.toNat + n ∧
      out.2 = { files with manifest := { files.manifest with
        next_generation := out.2.manifest.next_generation } } := by
  induction n generalizing files with
  | zero => exact ⟨fun g hg => absurd hg List.not_mem_nil, List.nodup_nil, rfl, rfl⟩
  | succ n ih =>
      have hmax : files.manifest.next_generation ≠ MAX_SEQ := by
        rintro heq
        rw [heq] at hroom
        have hval : MAX_SEQ.toNat = 2 ^ 64 - 1 := rfl
        omega
      have hnext := toNat_succ hmax
      have hone : files.reserve.2.manifest.next_generation.toNat =
          files.manifest.next_generation.toNat + 1 := hnext
      obtain ⟨hrange, hnodup, hcount, hrest⟩ := ih files.reserve.2 (by omega)
      have hlt : files.manifest.next_generation < files.reserve.2.manifest.next_generation :=
        lt_succ hmax
      have hreach : files.reserve.2.manifest.next_generation ≤
          (files.reserve.2.reserve_each n).2.manifest.next_generation :=
        UInt64.le_iff_toNat_le.2 (by omega)
      refine ⟨fun g hg => ?_, ?_, ?_, hrest⟩
      · rcases List.mem_cons.1 hg with rfl | hg
        · exact ⟨UInt64.le_refl _, UInt64.lt_of_lt_of_le hlt hreach⟩
        · exact ⟨UInt64.le_trans (UInt64.le_of_lt hlt) (hrange g hg).1, (hrange g hg).2⟩
      · refine List.nodup_cons.2 ⟨fun hin => ?_, hnodup⟩
        -- those after are past the first
        exact absurd (UInt64.lt_of_lt_of_le hlt (hrange _ hin).1) (UInt64.lt_irrefl _)
      grind [reserve_each]

/-! ## Files -/

theorem mem_keys_write_files {files : List (String × Bytes)}
    (h : name ∈ (write_files storage files).keys) :
    name ∈ storage.keys ∨ ∃ file ∈ files, file.1 = name := by
  induction files generalizing storage with
  | nil => exact Or.inl h
  | cons file files ih =>
      rcases ih h with hold | ⟨later, hlater, rfl⟩
      · grind [mem_keys_insert]
      grind

theorem lookup_write_files {files : List (String × Bytes)}
    (h : ∀ file ∈ files, file.1 ≠ name) :
    AList.lookup name (write_files storage files) = AList.lookup name storage := by
  induction files generalizing storage with
  | nil => rfl
  | cons file files ih =>
      have hrest := @ih (AList.insert file.1 file.2 storage)
        fun later hlater => h later (List.mem_cons_of_mem _ hlater)
      refine hrest.trans (AList.lookup_insert_ne ?_)
      exact (h file List.mem_cons_self).symm

theorem mem_keys_erase_files {names : List String}
    (h : name ∈ (erase_files storage names).keys) : name ∈ storage.keys := by
  induction names generalizing storage with
  | nil => exact h
  | cons first names ih => exact mem_keys_erase (ih h)

theorem lookup_erase_files {names : List String}
    (h : name ∉ names) : AList.lookup name (erase_files storage names) = AList.lookup name storage := by
  induction names generalizing storage with
  | nil => rfl
  | cons first names ih =>
      have hrest := @ih (AList.erase first storage) fun hin => h (List.mem_cons_of_mem _ hin)
      refine hrest.trans (AList.lookup_erase_ne ?_)
      grind

end SegmentManifest

end Laurus
