import Laurus.Common.Bytes
import Laurus.Storage.Helpers.Items
import Laurus.Storage.Model.Manifest

/-!
# Framed control files and the bare JSON before them

`manifest_framing_iff`: a saved payload loads as it was saved; a bare JSON
text loads as legacy exactly when it is told from a framed file, which
without a marker is a matter of its length; and a changed file whose
checksum is wrong is refused exactly when it is still taken for a framed one.
-/

namespace Laurus

open Laurus.Comp StructReader StructWriter

variable {crc32 : Bytes → UInt32} {magic : Option UInt32} {name : String}

/-! ## The framed form -/

/-- The leading marker, where there is one. -/
def magicBytes : Option UInt32 → Bytes
  | some magic => Bytes.ofNatLE 4 magic.toNat
  | none => []

/-- The bytes before the footer of a saved file. -/
def framedBody (magic : Option UInt32) (payload : Bytes) : Bytes :=
  magicBytes magic ++ (encode_u64 (UInt64.ofNat payload.length) ++ payload)

/-- A saved file. -/
def framedFile (crc32 : Bytes → UInt32) (magic : Option UInt32) (payload : Bytes) : Bytes :=
  framedBody magic payload ++ footer crc32 (framedBody magic payload)

/-- A checksum in the file is right for this payload: a footer's for all that
is before it, or the older trailer's for the payload alone. -/
def ChecksumHolds (crc32 : Bytes → UInt32) (magic : Option UInt32) (payload file : Bytes) : Prop :=
  ∃ len_bytes : Bytes,
    decode_u64 len_bytes = .ok (UInt64.ofNat payload.length, len_bytes.length) ∧
      let body := magicBytes magic ++ (len_bytes ++ payload)
      (file = body ++ footer crc32 body ∨
        (crc32 payload ≠ FOOTER_MAGIC ∧ file = body ++ Bytes.ofNatLE 4 (crc32 payload).toNat))

/-- No checksum in the file is right for any payload. -/
def ChecksumDetects (crc32 : Bytes → UInt32) (magic : Option UInt32) (file : Bytes) : Prop :=
  ∀ payload : Bytes, payload.length < 2 ^ 64 → ¬ ChecksumHolds crc32 magic payload file

theorem write_manifest_closes (crc32 : Bytes → UInt32) (magic : Option UInt32) (payload : Bytes) :
    ∃ w, write_manifest magic payload StructWriter.new = .ok ((), w) ∧
      w.close crc32 = .ok (framedFile crc32 magic payload) := by
  refine close_of_emits crc32 ?_
  cases magic with
  | none => exact emits_bytes payload
  | some magic => exact (emits_u32 magic).bind (emits_bytes payload)

theorem lookup_save (crc32 : Bytes → UInt32) (s : Storage) (name : String) (magic : Option UInt32)
    (payload : Bytes) :
    ∃ s', s.save_checksummed crc32 name magic payload none = (.ok (), s') ∧
      AList.lookup name s' = some (framedFile crc32 magic payload) := by
  obtain ⟨w, hwrite, hclose⟩ := write_manifest_closes crc32 magic payload
  unfold Storage.save_checksummed
  rw [hwrite]
  dsimp only
  rw [hclose]
  simp [Storage.save_bytes, Storage.create, Storage.rename]

/-! ## Telling the two apart -/

theorem magic_ends (body : Bytes) (crc32 : Bytes → UInt32) (payload : Bytes) :
    ends_in_footer (body ++ footer crc32 payload) = true := by
  grind [ends_in_footer, footer]

variable {payload content : Bytes}

theorem framedFile_not_legacy (crc32 : Bytes → UInt32) (magic : Option UInt32)
    (h : payload.length < 2 ^ 63) : is_legacy_json (framedFile crc32 magic payload) magic = false := by
  unfold is_legacy_json
  cases magic with
  | some expected =>
      have hlen : (Bytes.ofNatLE 4 expected.toNat).length = 4 := Bytes.length_ofNatLE 4 _
      have htake : (framedFile crc32 (some expected) payload).take 4 =
          Bytes.ofNatLE 4 expected.toNat := by
        rw [framedFile, framedBody, magicBytes, List.append_assoc, List.take_left' hlen]
      have hlong : 4 ≤ (framedFile crc32 (some expected) payload).length := by grind
      refine if_pos ⟨hlong, ?_⟩
      rw [htake, Bytes.toNatLE_ofNatLE expected.toNat_lt, UInt32.ofNat_toNat]
  | none =>
      have hcount : (UInt64.ofNat payload.length).toNat = payload.length :=
        toNat_ofNat_length (by omega)
      have hten := length_encode_u64_le (UInt64.ofNat payload.length)
      have hfile : framedFile crc32 none payload =
          encode_u64 (UInt64.ofNat payload.length) ++ (payload ++
            footer crc32 (framedBody none payload)) := by
        simp only [framedFile, framedBody, magicBytes, List.nil_append, List.append_assoc]
      have hdecode : decode_u64 (framedFile crc32 none payload) =
          .ok (UInt64.ofNat payload.length, (encode_u64 (UInt64.ofNat payload.length)).length) := by
        rw [hfile]
        exact decode_u64_append (decode_u64_encode_u64 _) _
      have hends : ends_in_footer (framedFile crc32 none payload) = true := magic_ends _ _ _
      have hlength : (framedFile crc32 none payload).length =
          (encode_u64 (UInt64.ofNat payload.length)).length + (payload.length + FOOTER_LEN) := by
        rw [hfile, List.length_append, List.length_append, length_footer]
      have height : FOOTER_LEN = 8 := rfl
      unfold framing_is_consistent
      rw [hdecode]
      dsimp only
      rw [hends, if_pos rfl, hcount, hlength]
      have hall : payload.length + (encode_u64 (UInt64.ofNat payload.length)).length < 2 ^ 64 ∧
          payload.length + (encode_u64 (UInt64.ofNat payload.length)).length + FOOTER_LEN < 2 ^ 64 ∧
          payload.length + (encode_u64 (UInt64.ofNat payload.length)).length + FOOTER_LEN =
            (encode_u64 (UInt64.ofNat payload.length)).length + (payload.length + FOOTER_LEN) := by
        omega
      simpa using hall

/-! ## Loading a saved file -/

theorem reads_manifest (magic : Option UInt32) (name : String)
    (h : payload.length < 2 ^ 64) :
    Reads (do
      read_magic name magic
      StructReader.read_bytes) (framedBody magic payload) payload := by
  cases magic with
  | none => exact Reads.nil_bind (Reads.pure ()) (reads_bytes h)
  | some expected =>
      have hmagic : Reads (read_magic name (some expected)) (Bytes.ofNatLE 4 expected.toNat) () := by
        refine (reads_u32 expected).bind_nil ?_
        rw [if_neg (by simp)]
        exact Reads.pure ()
      exact hmagic.bind (reads_bytes h)

/-- **A saved payload loads as it was saved.** -/
theorem load_framedFile (crc32 : Bytes → UInt32) (name : String) (magic : Option UInt32) (h : payload.length < 2 ^ 63) :
    load_content crc32 name magic (framedFile crc32 magic payload) =
      .ok (some (payload, .Checksummed)) := by
  have hreads := reads_manifest magic name (show payload.length < 2 ^ 64 by omega)
  obtain ⟨r, hall⟩ := read_closed crc32 "" hreads
  have hload : ∃ r', load_framed crc32 name magic (StructReader.new (framedFile crc32 magic payload)) =
      .ok (payload, r') := by
    obtain ⟨found, r₁, hread, hrest⟩ := bind_eq_ok hall
    obtain ⟨done, r₂, hexpect, hpure⟩ := bind_eq_ok hrest
    cases hpure
    obtain ⟨status, r₃, hverify, hstatus⟩ := bind_eq_ok hexpect
    obtain ⟨done, r₄, hmagic, hbytes⟩ := bind_eq_ok hread
    -- the footer is eight bytes, so the status is no legacy one
    have hremaining : r₁.remaining = FOOTER_LEN := by
      have hsame := hreads (StructReader.new (framedFile crc32 magic payload))
        (footer crc32 (framedBody magic payload)) rfl
      rw [show framedFile crc32 magic payload = framedBody magic payload ++
        footer crc32 (framedBody magic payload) from rfl] at hsame
      rw [hread] at hsame
      cases hsame
      have hrest := rest_advance_of (show (StructReader.new (framedBody magic payload ++
        footer crc32 (framedBody magic payload))).rest = framedBody magic payload ++ _ from rfl)
      rw [← length_rest]
      show ((StructReader.new _).advance (framedBody magic payload)).rest.length = _
      rw [hrest, length_footer]
    have hne : status ≠ .Mismatch := by
      rintro rfl
      cases hstatus
    have hverified : status = .Verified := by
      obtain ⟨-, hfooter | hlegacy⟩ := verify_checksum_accepts hverify hne
      · exact hfooter.2.1
      · rw [hremaining] at hlegacy
        cases hlegacy.1
    subst hverified
    refine ⟨r₃, ?_⟩
    unfold load_framed
    rw [bind_apply, show StructReader.new (framedFile crc32 magic payload) = StructReader.new
      (framedBody magic payload ++ footer crc32 (framedBody magic payload)) from rfl, hmagic]
    dsimp only
    rw [bind_apply, hbytes]
    dsimp only
    rw [bind_apply, hverify]
    rfl
  obtain ⟨r', hload⟩ := hload
  have hnonempty : framedFile crc32 magic payload ≠ [] := by
    intro hnil
    have hlen := congrArg List.length hnil
    rw [framedFile, List.length_append, length_footer] at hlen
    cases hlen
  unfold load_content
  rw [if_neg hnonempty, framedFile_not_legacy crc32 magic h, if_neg Bool.false_ne_true, hload]

/-! ## Loading any file -/

theorem takes_magic (name : String) (magic : Option UInt32) :
    Takes (read_magic name magic) fun _ bs => bs = magicBytes magic := by
  cases magic with
  | none => exact Takes.pure rfl
  | some expected =>
      refine takes_u32.bind fun found bs hbs => ?_
      split
      · exact Takes.throw _
      · rename_i hsame
        rw [not_not] at hsame
        exact Takes.pure (by rw [hbs, hsame, List.append_nil, magicBytes])

/-- **A payload that is returned as checksummed has a checksum that is right.** -/
theorem load_framed_holds {r : StructReader}
    (h : load_framed crc32 name magic (StructReader.new content) = .ok (payload, r)) :
    payload.length < 2 ^ 64 ∧ ChecksumHolds crc32 magic payload content := by
  obtain ⟨done, r₁, hmagic, hafter⟩ := bind_eq_ok h
  obtain ⟨found, r₂, hbytes, hafter⟩ := bind_eq_ok hafter
  obtain ⟨status, r₃, hverify, hlast⟩ := bind_eq_ok hafter
  have hvouches : status.vouches_for crc32 found = true ∧ found = payload := by
    split at hlast
    · cases hlast
      exact ⟨‹_›, rfl⟩
    · cases hlast
  obtain ⟨hvouches, rfl⟩ := hvouches
  obtain ⟨bs, t, hcontent, rfl, rfl⟩ := takes_magic name magic _ _ _ hmagic
  obtain ⟨cs, t', hrest, rfl, len_bytes, rfl, h64, hdecode⟩ := takes_bytes _ _ _ hbytes
  rw [input_rest, input_advance, rest_advance_of hcontent] at hrest
  have hwhole : content = magicBytes magic ++ (len_bytes ++ found) ++ t' := by
    rw [List.append_assoc, ← hrest]
    exact hcontent
  set body := magicBytes magic ++ (len_bytes ++ found) with hbody
  have hreader : Input.advance (Input.advance (StructReader.new content) (magicBytes magic))
      (len_bytes ++ found) = (StructReader.new content).advance body := Input.advance_append _ _ _
  rw [hreader] at hverify
  have hleft : ((StructReader.new content).advance body).rest = t' := rest_advance_of hwhole
  have hhashed : ((StructReader.new content).advance body).hashed = body := List.nil_append _
  have hne : status ≠ .Mismatch := by
    rintro rfl
    cases hvouches
  refine ⟨h64, len_bytes, hdecode, ?_⟩
  obtain ⟨-, ⟨hrem, -, hstored, hfooter⟩ | ⟨hrem, hstored, rfl⟩⟩ :=
    verify_checksum_accepts hverify hne
  · refine Or.inl ?_
    rw [← length_rest, hleft, show FOOTER_LEN = 8 from rfl] at hrem
    grind [eq_ofNatLE_of_word, List.length_take, footer, List.take_append_drop]
  · refine Or.inr ?_
    rw [← length_rest, hleft, show LEGACY_TRAILER_LEN = 4 from rfl] at hrem
    rw [hleft, List.take_of_length_le (by omega)] at hstored hvouches
    simp only [ChecksumStatus.vouches_for, decide_eq_true_eq] at hvouches
    have hcrc := eq_ofNatLE_of_word hrem hvouches
    grind

theorem safe_load_framed (crc32 : Bytes → UInt32) (name : String) (magic : Option UInt32) :
    Safe (load_framed crc32 name magic) fun _ => True := by
  have hmagic : Safe (read_magic name magic) fun _ => True := by
    cases magic with
    | none => exact Safe.pure trivial
    | some expected =>
        refine Safe.skip safe_u32 fun found => Safe.ite (fun _ => Safe.throw) fun _ => Safe.pure trivial
  refine hmagic.bind fun _ _ => Safe.skip safe_bytes fun payload => ?_
  refine (safe_verify_checksum crc32).bind fun status _ => ?_
  exact Safe.ite (fun _ => Safe.pure trivial) fun _ => Safe.throw

/-- **A file with no checksum that is right is refused exactly when it is
taken for a framed one.** -/
theorem load_content_refuses (hnonempty : content ≠ [])
    (hdetects : ChecksumDetects crc32 magic content) :
    (∃ e, load_content crc32 name magic content = .error (Fault.error e)) ↔
      is_legacy_json content magic = false := by
  unfold load_content
  rw [if_neg hnonempty]
  cases hlegacy : is_legacy_json content magic with
  | true =>
      simp
  | false =>
      refine ⟨fun _ => rfl, fun _ => ?_⟩
      cases hload : load_framed crc32 name magic (StructReader.new content) with
      | ok out =>
          obtain ⟨h64, hholds⟩ := load_framed_holds hload
          exact absurd hholds (hdetects _ h64)
      | error fault =>
          have hsafe := (safe_load_framed crc32 name magic).error trivial hload
          cases fault with
          | error e => exact ⟨e, rfl⟩
          | panicked site => exact absurd trivial hsafe
          | overReserved count available => exact absurd trivial hsafe

/-! ## Bare JSON -/

/-- JSON's own whitespace. -/
def JsonSpace (byte : UInt8) : Prop := byte = 0x20 ∨ byte = 0x09 ∨ byte = 0x0A ∨ byte = 0x0D

/-- A text that is an object or an array from end to end, whatever is in it. -/
def BareJson (content : Bytes) : Prop :=
  ∃ before opening inner closing after, content = before ++ (opening :: inner ++ [closing]) ++ after ∧
    (∀ byte ∈ before, JsonSpace byte) ∧ (∀ byte ∈ after, JsonSpace byte) ∧
      ((opening = 0x7B ∧ closing = 0x7D) ∨ (opening = 0x5B ∧ closing = 0x5D))

/-- How a bare JSON text is told from a framed file: with a marker, by its
first four bytes; without one, by its length, which the first byte would be
a prefix of. -/
def ToldApart (content : Bytes) : Option UInt32 → Prop
  | some expected => ¬ (4 ≤ content.length ∧ UInt32.ofNat (Bytes.toNatLE (content.take 4)) = expected)
  | none => content.length ≠ (content.headD 0).toNat + 5

theorem BareJson.looks_like_json (h : BareJson content) :
    looks_like_json content = true := by
  obtain ⟨before, opening, inner, closing, after, rfl, hbefore, -, hkind⟩ := h
  have hskip : before.find? (fun byte => ! is_ascii_whitespace byte) = none := by
    grind [JsonSpace, is_ascii_whitespace]
  have hopening : (! is_ascii_whitespace opening) = true ∧ (opening = 0x7B ∨ opening = 0x5B) := by
    rcases hkind with ⟨rfl, -⟩ | ⟨rfl, -⟩ <;> decide
  unfold Laurus.looks_like_json
  grind

theorem BareJson.head (h : BareJson content) :
    ∃ first rest, content = first :: rest ∧ first.toNat < 128 := by
  obtain ⟨before, opening, inner, closing, after, rfl, hbefore, -, hkind⟩ := h
  cases before with
  | nil =>
      refine ⟨opening, inner ++ [closing] ++ after, by simp, ?_⟩
      rcases hkind with ⟨rfl, -⟩ | ⟨rfl, -⟩ <;> decide
  | cons first before =>
      refine ⟨first, before ++ (opening :: inner ++ [closing]) ++ after, by simp, ?_⟩
      have hspace := hbefore first List.mem_cons_self
      rcases hspace with rfl | rfl | rfl | rfl <;> decide

theorem BareJson.not_footer (h : BareJson content) :
    ends_in_footer content = false := by
  obtain ⟨before, opening, inner, closing, after, rfl, -, hafter, hkind⟩ := h
  have hlast : ∃ body last, before ++ (opening :: inner ++ [closing]) ++ after = body ++ [last] ∧
      last ≠ 0x43 := by
    rcases List.eq_nil_or_concat after with rfl | ⟨after, last, rfl⟩
    · refine ⟨before ++ (opening :: inner), closing, by simp, ?_⟩
      grind
    · refine ⟨before ++ (opening :: inner ++ [closing]) ++ after, last, by simp, ?_⟩
      have hspace := hafter last (by simp)
      unfold JsonSpace at hspace
      grind
  obtain ⟨body, last, heq, hne⟩ := hlast
  rw [heq, ← Bool.not_eq_true]
  unfold ends_in_footer
  rw [List.isSuffixOf_iff_suffix]
  rintro ⟨front, hfront⟩
  have hmark : Bytes.ofNatLE 4 FOOTER_MAGIC.toNat = [0x4C, 0x43, 0x52] ++ [0x43] := by decide
  grind [List.append_inj_right']

theorem BareJson.legacy_iff (h : BareJson content) (magic : Option UInt32) :
    is_legacy_json content magic = true ↔ ToldApart content magic := by
  unfold is_legacy_json
  cases magic with
  | some expected =>
      grind [ToldApart, looks_like_json]
  | none =>
      obtain ⟨first, rest, hcontent, hfirst⟩ := h.head
      have hdecode : decode_u64 content = .ok (first.toUInt64, 1) := by
        have hgroup : Leb128.IsGroup [first] := .last (by unfold Leb128.continues; omega)
        have hvalue : Leb128.value [first] = first.toNat := by
          simp only [Leb128.value]
          omega
        have hone := @decode_u64_loop_group _ hgroup 0 0 0 (by simp) (by simp)
          (by rw [hvalue]; simp; omega)
        rw [hvalue] at hone
        rw [hcontent, ← List.singleton_append]
        refine decode_u64_append ?_ rest
        unfold decode_u64
        rw [hone]
        simp
      have hhead : content.headD 0 = first := by rw [hcontent]; rfl
      unfold framing_is_consistent ToldApart
      rw [hdecode, hhead]
      dsimp only
      rw [h.not_footer, if_neg Bool.false_ne_true, UInt8.toNat_toUInt64]
      grind

/-- **A bare JSON text loads as it is exactly when it is told apart.** -/
theorem load_bare_json (h : BareJson content) :
    load_content crc32 name magic content = .ok (some (content, .Legacy)) ↔
      ToldApart content magic := by
  grind [BareJson.head, BareJson.legacy_iff, load_content]

/-! ## The manifest's framing -/

theorem framedFile_ne_nil (crc32 : Bytes → UInt32) (magic : Option UInt32) (payload : Bytes) :
    0 < (framedFile crc32 magic payload).length := by
  rw [framedFile, List.length_append, length_footer]
  exact Nat.add_pos_right _ (by decide)

/-- **What a control file loads as.** -/
theorem manifest_framing_iff (crc32 : Bytes → UInt32) (s : Storage) (name : String)
    (magic : Option UInt32) :
    (∀ payload : Bytes, payload.length < 2 ^ 63 →
      ∃ s', s.save_checksummed crc32 name magic payload none = (.ok (), s') ∧
        s'.load_checksummed crc32 name magic = .ok (some (payload, .Checksummed))) ∧
    (∀ content, AList.lookup name s = some content → BareJson content →
      (s.load_checksummed crc32 name magic = .ok (some (content, .Legacy)) ↔
        ToldApart content magic)) ∧
    (∀ payload changed : Bytes, AList.lookup name s = some changed →
      changed.length = (framedFile crc32 magic payload).length →
      ChecksumDetects crc32 magic changed →
        ((∃ e, s.load_checksummed crc32 name magic = .error (Fault.error e)) ↔
          is_legacy_json changed magic = false)) := by
  refine ⟨fun payload hlen => ?_, fun content hfile hbare => ?_,
    fun payload changed hfile hlen hdetects => ?_⟩
  · obtain ⟨s', hsave, hfile⟩ := lookup_save crc32 s name magic payload
    refine ⟨s', hsave, ?_⟩
    unfold Storage.load_checksummed
    rw [hfile]
    exact load_framedFile crc32 name magic hlen
  · unfold Storage.load_checksummed
    rw [hfile]
    exact load_bare_json hbare
  · have hnonempty : changed ≠ [] := by
      rintro rfl
      have hpos := framedFile_ne_nil crc32 magic payload
      rw [← hlen, List.length_nil] at hpos
      omega
    unfold Storage.load_checksummed
    rw [hfile]
    exact load_content_refuses hnonempty hdetects

/-- An object of 128 bytes, blanks between its braces. -/
def sampleBareObject : Bytes := 0x7B :: List.replicate 126 0x20 ++ [0x7D]

theorem sampleBareObject_bare : BareJson sampleBareObject :=
  ⟨[], 0x7B, List.replicate 126 0x20, 0x7D, [], rfl, by simp, by simp, Or.inl ⟨rfl, rfl⟩⟩

/-- A framed file of two bytes under the marker `HNSW`, its first byte made a
brace. -/
def sampleBracedFile : Bytes := 0x7B :: (framedFile Crc32.checksum (some 0x57534E48) [1, 2]).drop 1

theorem sampleBracedFile_detected :
    ChecksumDetects Crc32.checksum (some 0x57534E48) sampleBracedFile := by
  rintro payload - ⟨len_bytes, -, hfile⟩
  have hfirst : sampleBracedFile.head? = some 0x7B := rfl
  obtain hfile | ⟨-, hfile⟩ := hfile
  all_goals
    rw [hfile] at hfirst
    cases hfirst

def sampleControlFiles : Storage :=
  AList.insert "nodes" sampleBracedFile (AList.insert "metadata.json" sampleBareObject ∅)

theorem manifest_framing_iff_sample :
    (∃ s', Storage.save_checksummed Crc32.checksum sampleControlFiles "store" none [7] none = (.ok (), s') ∧
      s'.load_checksummed Crc32.checksum "store" none = .ok (some ([7], .Checksummed))) ∧
    (sampleControlFiles.load_checksummed Crc32.checksum "metadata.json" none =
        .ok (some (sampleBareObject, .Legacy)) ↔ ToldApart sampleBareObject none) ∧
    ((∃ e, sampleControlFiles.load_checksummed Crc32.checksum "nodes" (some 0x57534E48) =
        .error (Fault.error e)) ↔ is_legacy_json sampleBracedFile (some 0x57534E48) = false) :=
  ⟨(manifest_framing_iff Crc32.checksum sampleControlFiles "store" none).1 [7] (by decide),
    (manifest_framing_iff Crc32.checksum sampleControlFiles "metadata.json" none).2.1
      sampleBareObject (by decide +kernel) sampleBareObject_bare,
    (manifest_framing_iff Crc32.checksum sampleControlFiles "nodes" (some 0x57534E48)).2.2
      [1, 2] sampleBracedFile (by decide +kernel) (by decide +kernel) sampleBracedFile_detected⟩


/-- The bare object does not load as it is, as its length is its first byte
and five, and the framed file with a brace for its first byte loads as bare
JSON. -/
theorem manifest_framing_counterexample :
    (BareJson sampleBareObject ∧ AList.lookup "metadata.json" sampleControlFiles = some sampleBareObject ∧
      sampleControlFiles.load_checksummed Crc32.checksum "metadata.json" none ≠
        .ok (some (sampleBareObject, .Legacy))) ∧
    (ChecksumDetects Crc32.checksum (some 0x57534E48) sampleBracedFile ∧
      sampleControlFiles.load_checksummed Crc32.checksum "nodes" (some 0x57534E48) =
        .ok (some (sampleBracedFile, .Legacy))) := by
  refine ⟨⟨sampleBareObject_bare, by decide +kernel, ?_⟩, sampleBracedFile_detected, by decide +kernel⟩
  have hfile : AList.lookup "metadata.json" sampleControlFiles = some sampleBareObject := by
    decide +kernel
  intro hload
  unfold Storage.load_checksummed at hload
  rw [hfile] at hload
  have hapart : sampleBareObject.length ≠ (sampleBareObject.headD 0).toNat + 5 :=
    (load_bare_json sampleBareObject_bare).mp hload
  exact hapart (by decide +kernel)

end Laurus
