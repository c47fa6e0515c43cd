import Laurus.Deletion.Model.Manager
import Laurus.Storage.Helpers.Structured

/-!
# What each manager operation does to the saved bitmaps

The files the manager reads back are those named `.delmap`; the
temporary files and the log are not among them (`SameBitmaps`). A save
either leaves all of them alone or replaces its segment's with the
bitmap in memory (`save_bitmap_ok`, `save_bitmap_error`), and a load
returns exactly what is saved (`new_of_known`).
-/

namespace Laurus

section Codec

/-!
## A saved bitmap reads back

The version-4 file of a bitmap decodes to that bitmap, all of its fields
included (`load_bitmap_bytes`). The identifiers a reader accepts are ones
a later save can write: their length came from a `u64`
(`segment_id_fits_of_load`).
-/

open Laurus.Comp StructWriter StructReader

/-- The byte length of a segment identifier is a `u64`'s. -/
def IdFits (segment_id : String) : Prop := segment_id.toByteArray.data.toList.length < 2 ^ 64

namespace DeletionBitmap

variable {roaring : Roaring} {b : DeletionBitmap}

/-- The bytes of a version-4 file before its footer. -/
def payload (roaring : Roaring) (b : DeletionBitmap) : Bytes :=
  Bytes.ofNatLE 4 MAGIC.toNat ++ (Bytes.ofNatLE 4 (4 : UInt32).toNat ++
    (stringBytes b.segment_id ++ (Bytes.ofNatLE 8 b.total_docs.toNat ++
      (Bytes.ofNatLE 8 b.deleted_count.toNat ++ (Bytes.ofNatLE 8 b.last_modified.toNat ++
        (Bytes.ofNatLE 8 b.version.toNat ++ (Bytes.ofNatLE 8 b.min_doc_id.toNat ++
          (Bytes.ofNatLE 8 b.max_doc_id.toNat ++
            (encode_u64 (UInt64.ofNat (roaring.serialize_into b.deleted_docs).length) ++
              roaring.serialize_into b.deleted_docs)))))))))

theorem emits_write (h : (roaring.serialize_into b.deleted_docs).length < 2 ^ 63) :
    Emits (b.write_to_storage roaring) (payload roaring b) () := by
  refine (emits_u32 _).bind ((emits_u32 _).bind ((emits_string _).bind ((emits_u64 _).bind
    ((emits_u64 _).bind ((emits_u64 _).bind ((emits_u64 _).bind ((emits_u64 _).bind
      ((emits_u64 _).bind ?_))))))))
  simp only [if_neg (Nat.not_le.2 h)]
  exact emits_bytes _

theorem write_error (h : 2 ^ 63 ≤ (roaring.serialize_into b.deleted_docs).length) :
    ∃ e, b.write_to_storage roaring StructWriter.new = .error e := by
  refine ⟨LaurusError.internal "capacity overflow", ?_⟩
  have hstep : ∀ {α : Type} {p : Write Unit} {bs : Bytes} {f : Unit → Write α}
      {w : StructWriter} {e : LaurusError}, Emits p bs () → Output.Ready w →
      (∀ w', Output.Ready w' → f () w' = .error e) → (p >>= f) w = .error e := by
    intro α p bs f w e hp hw hf
    rw [bind_apply, hp w hw]
    exact hf _ (Output.ready_emit hw)
  refine hstep (emits_u32 _) ready_new fun _ h1 => hstep (emits_u32 _) h1 fun _ h2 =>
    hstep (emits_string _) h2 fun _ h3 => hstep (emits_u64 _) h3 fun _ h4 =>
    hstep (emits_u64 _) h4 fun _ h5 => hstep (emits_u64 _) h5 fun _ h6 =>
    hstep (emits_u64 _) h6 fun _ h7 => hstep (emits_u64 _) h7 fun _ h8 =>
    hstep (emits_u64 _) h8 fun _ _ => ?_
  simp only [if_pos h]
  rfl

/-- **The reader takes the payload back to the bitmap.** -/
theorem reads_fields (hR : roaring.Lawful) (hid : IdFits b.segment_id)
    (h : (roaring.serialize_into b.deleted_docs).length < 2 ^ 63) :
    Reads (read_fields roaring) (payload roaring b) b := by
  refine (reads_u32 _).bind ?_
  refine (reads_u32 _).bind ?_
  refine (reads_string hid).bind ((reads_u64 _).bind ((reads_u64 _).bind ((reads_u64 _).bind
    ((reads_u64 _).bind ((reads_u64 _).bind ((reads_u64 _).bind
      ((reads_bytes (by omega)).bind_nil ?_)))))))
  simp only [hR b.deleted_docs]
  exact Reads.pure b

/-! ## Any file -/

section Safe

theorem safe_id {β : Type} {f : String → Read β} {R : β → Prop}
    (hf : ∀ segment_id, IdFits segment_id → Safe (f segment_id) R) : Safe (read_string >>= f) R :=
  (Safe.of_remaining (R := IdFits) safe_string fun _ _ _ h => h.1).bind hf

theorem safe_ids (count : ℕ) : ∀ acc, Safe (read_ids count acc) fun _ => True := by
  induction count with
  | zero => exact fun acc => Safe.pure trivial
  | succ count ih => exact fun acc => Safe.skip safe_u64 fun doc_id => ih _

/-- **No file crashes the reader**, and the identifier of an accepted one is
one a save can write. -/
theorem safe_fields (roaring : Roaring) :
    Safe (read_fields roaring) fun b => IdFits b.segment_id := by
  refine Safe.skip safe_u32 fun magic => Safe.ite (fun _ => Safe.throw) fun _ => ?_
  refine Safe.skip safe_u32 fun version => ?_
  refine Safe.ite (fun _ => ?_) fun _ => Safe.ite (fun _ => ?_) fun _ =>
    Safe.ite (fun _ => ?_) fun _ => Safe.ite (fun _ => ?_) fun _ => Safe.throw
  · exact safe_id fun segment_id hid => Safe.skip safe_u64 fun _ => Safe.skip safe_u64 fun _ =>
      Safe.skip safe_u64 fun _ => Safe.skip safe_u64 fun _ => Safe.skip safe_varint fun _ =>
      Safe.skip safe_bytes fun _ => Safe.pure hid
  · refine safe_id fun segment_id hid => Safe.skip safe_u64 fun _ => Safe.skip safe_u64 fun _ =>
      Safe.skip safe_u64 fun _ => Safe.skip safe_u64 fun _ => Safe.skip safe_varint fun count => ?_
    exact (safe_ids _ _).bind fun _ _ => Safe.pure hid
  · refine safe_id fun segment_id hid => Safe.skip safe_u64 fun _ => Safe.skip safe_u64 fun _ =>
      Safe.skip safe_u64 fun _ => Safe.skip safe_u64 fun _ => Safe.skip safe_u64 fun _ =>
      Safe.skip safe_u64 fun _ => Safe.skip safe_varint fun count => ?_
    exact (safe_ids _ _).bind fun _ _ => Safe.pure hid
  · refine safe_id fun segment_id hid => Safe.skip safe_u64 fun _ => Safe.skip safe_u64 fun _ =>
      Safe.skip safe_u64 fun _ => Safe.skip safe_u64 fun _ => Safe.skip safe_u64 fun _ =>
      Safe.skip safe_u64 fun _ => Safe.skip safe_bytes fun payload => ?_
    cases roaring.deserialize_from payload with
    | ok docs => exact Safe.pure hid
    | error e => exact Safe.throw

end Safe

end DeletionBitmap

namespace DeletionManager

variable {deps : DeletionDeps} {b : DeletionBitmap} {bytes : Bytes}

/-- **What `save_bitmap` writes, `load_bitmaps` reads.** -/
theorem load_bitmap_bytes (hR : deps.roaring.Lawful) (hid : IdFits b.segment_id)
    (h : bitmap_bytes deps b = .ok bytes) : load_bitmap deps bytes = .ok b := by
  by_cases hlen : (deps.roaring.serialize_into b.deleted_docs).length < 2 ^ 63
  · obtain ⟨w, hw, hclose⟩ :=
      close_of_emits deps.crc32 (DeletionBitmap.emits_write hlen)
    have hbytes : bitmap_bytes deps b = .ok (DeletionBitmap.payload deps.roaring b ++
        footer deps.crc32 (DeletionBitmap.payload deps.roaring b)) := by
      rw [← hclose, bitmap_bytes, hw]
      rfl
    obtain ⟨r, hr⟩ := read_closed deps.crc32 "deletion bitmap"
      (DeletionBitmap.reads_fields hR hid hlen)
    rw [hbytes, Except.ok.injEq] at h
    rw [load_bitmap, DeletionBitmap.read_from_storage, ← h, hr]
  · obtain ⟨e, he⟩ := DeletionBitmap.write_error (Nat.not_lt.1 hlen)
    rw [bitmap_bytes, he] at h
    cases h

theorem segment_id_fits_of_load (h : load_bitmap deps bytes = .ok b) : IdFits b.segment_id := by
  rw [load_bitmap] at h
  split at h
  · rename_i bitmap r hread
    cases h
    obtain ⟨b', r', hfields, hrest⟩ := bind_eq_ok hread
    obtain ⟨_, _, _, hpure⟩ := bind_eq_ok hrest
    cases hpure
    exact Triple.ok (DeletionBitmap.safe_fields deps.roaring) trivial hfields
  · cases h

end DeletionManager

end Codec

section Manager

/-! ## File names -/

theorem ends_with_append (segment_id suffix : String) :
    ends_with (segment_id ++ suffix) suffix = true := by
  rw [ends_with, List.isSuffixOf_iff_suffix, String.toList_append]
  exact List.suffix_append _ _

theorem ends_with_bitmap_file (segment_id : String) :
    ends_with (bitmap_file segment_id) ".delmap" = true := ends_with_append _ _

theorem not_ends_with_tmp (segment_id : String) :
    ends_with (tmp_file segment_id) ".delmap" = false := by
  rw [Bool.eq_false_iff, ne_eq, ends_with, List.isSuffixOf_iff_suffix]
  rintro ⟨t, ht⟩
  have hrev := congrArg List.reverse ht
  simp [tmp_file, String.toList_append] at hrev

theorem bitmap_file_injective : Function.Injective bitmap_file := by
  intro a b h
  have hlist := congrArg String.toList h
  simp only [bitmap_file, String.toList_append, List.append_cancel_right_eq] at hlist
  exact String.toList_inj.1 hlist

variable {name : String} {s : Storage}

theorem tmp_file_ne_of_ends_with {segment_id : String} (h : ends_with name ".delmap" = true) :
    name ≠ tmp_file segment_id := by
  rintro rfl
  rw [not_ends_with_tmp] at h
  cases h

/-! ## The bitmaps on storage -/

variable {deps : DeletionDeps}

/-- The two storages hold the same `.delmap` files. -/
def SameBitmaps (s s' : Storage) : Prop :=
  ∀ name, ends_with name ".delmap" = true → s'.lookup name = s.lookup name

theorem SameBitmaps.refl (s : Storage) : SameBitmaps s s := fun _ _ => rfl

theorem SameBitmaps.insert {s : Storage} {name : String} {bytes : Bytes}
    (h : ends_with name ".delmap" = false) : SameBitmaps s (AList.insert name bytes s) := by
  intro other hother
  refine AList.lookup_insert_ne ?_
  grind

theorem SameBitmaps.create {bytes : Bytes}
    {fault : Option WriteFault} (h : ends_with name ".delmap" = false) :
    SameBitmaps s (s.create name bytes fault).2 := by
  rcases fault with - | - | -
  · exact SameBitmaps.insert h
  · exact SameBitmaps.refl s
  · exact SameBitmaps.insert h

theorem SameBitmaps.appendTo {bytes : Bytes}
    {fault : Option WriteFault} (h : ends_with name ".delmap" = false) :
    SameBitmaps s (s.appendTo name bytes fault).2 := by
  rcases fault with - | - | -
  · exact SameBitmaps.insert h
  · exact SameBitmaps.refl s
  · exact SameBitmaps.insert h

/-- The bitmap a segment's `.delmap` holds. -/
def saved (deps : DeletionDeps) (s : Storage) (segment_id : String) : Option DeletionBitmap :=
  (AList.lookup (bitmap_file segment_id) s).bind fun bytes =>
    (DeletionManager.load_bitmap deps bytes).toOption

theorem saved_of_same {s' : Storage} (h : SameBitmaps s s') (segment_id : String) :
    saved deps s' segment_id = saved deps s segment_id := by
  rw [saved, saved, h _ (ends_with_bitmap_file segment_id)]

theorem saved_eq_some {segment_id : String} {b : DeletionBitmap} :
    saved deps s segment_id = some b ↔
      ∃ bytes, AList.lookup (bitmap_file segment_id) s = some bytes ∧
        DeletionManager.load_bitmap deps bytes = .ok b := by
  simp only [saved, Option.bind_eq_some_iff]
  refine exists_congr fun bytes => and_congr_right fun _ => ?_
  cases DeletionManager.load_bitmap deps bytes <;> simp [Except.toOption]

/-- Every `.delmap` loads, and is named by the segment it holds. -/
def WellNamed (deps : DeletionDeps) (s : Storage) : Prop :=
  ∀ name bytes, ends_with name ".delmap" = true → AList.lookup name s = some bytes →
    ∃ b, DeletionManager.load_bitmap deps bytes = .ok b ∧ name = bitmap_file b.segment_id

namespace DeletionManager

variable {m m' : DeletionManager} {s s' : Storage} {segment_id : String}

/-! ## Saving -/

variable {fault : Option SaveFault}

theorem save_bitmap_error {e : LaurusError}
    (h : m.save_bitmap deps s segment_id fault = (.error e, s')) : SameBitmaps s s' := by
  rw [save_bitmap] at h
  split at h
  · cases h
  split at h
  · cases h; exact SameBitmaps.refl s
  have htmp := not_ends_with_tmp segment_id
  rcases fault with - | f | e'
  · simp only [Storage.create, Storage.rename, AList.lookup_insert] at h
    cases h
  · grind [SameBitmaps.create]
  · cases h
    exact SameBitmaps.insert htmp

/-- **A save that succeeds puts the bitmap in memory in its file**, and
touches no other. -/
theorem save_bitmap_ok {b : DeletionBitmap}
    (hb : m.bitmaps.lookup segment_id = some b)
    (h : m.save_bitmap deps s segment_id fault = (.ok (), s')) :
    (∃ bytes, bitmap_bytes deps b = .ok bytes ∧
      AList.lookup (bitmap_file segment_id) s' = some bytes) ∧
    ∀ name, ends_with name ".delmap" = true → name ≠ bitmap_file segment_id →
      AList.lookup name s' = AList.lookup name s := by
  rw [save_bitmap, hb] at h
  simp only at h
  split at h
  · cases h
  rcases fault with - | (e | ⟨e, n⟩) | e'
  · simp only [Storage.create, Storage.rename, AList.lookup_insert, Prod.mk.injEq, true_and] at h
    grind [AList.lookup_insert, tmp_file_ne_of_ends_with, AList.lookup_insert_ne,
      AList.lookup_erase_ne]
  · simp only [Storage.create, Prod.mk.injEq, reduceCtorEq, false_and] at h
  · simp only [Storage.create, Prod.mk.injEq, reduceCtorEq, false_and] at h
  · simp only [Storage.create, Storage.rename, Prod.mk.injEq, reduceCtorEq, false_and] at h

theorem save_bitmap_unknown (hb : m.bitmaps.lookup segment_id = none) :
    m.save_bitmap deps s segment_id fault = (.ok (), s) := by
  rw [save_bitmap, hb]

/-! ## Loading -/

/-- The loop returns what the files it went through hold, the rest as it
was. -/
theorem load_bitmaps_loop_spec (hs : WellNamed deps s) (files : List String) :
    ∀ acc, (∀ file ∈ files, ends_with file ".delmap" = true → file ∈ s) →
      ∃ bitmaps, load_bitmaps_loop deps s files acc = .ok bitmaps ∧
        ∀ segment_id, bitmaps.lookup segment_id =
          if bitmap_file segment_id ∈ files then saved deps s segment_id
          else acc.lookup segment_id := by
  induction files with
  | nil => exact fun acc _ => ⟨acc, rfl, fun segment_id => by simp⟩
  | cons file files ih =>
      intro acc hfiles
      have hrest : ∀ f ∈ files, ends_with f ".delmap" = true → f ∈ s :=
        fun f hf => hfiles f (List.mem_cons_of_mem _ hf)
      rw [load_bitmaps_loop]
      by_cases hend : ends_with file ".delmap" = true
      · obtain ⟨bytes, hbytes⟩ := Option.isSome_iff_exists.1
          (AList.lookup_isSome.2 (hfiles file List.mem_cons_self hend))
        obtain ⟨b, hload, rfl⟩ := hs file bytes hend hbytes
        rw [if_pos hend, hbytes]
        simp only [hload]
        obtain ⟨bitmaps, hok, hlookup⟩ := ih (acc.insert b.segment_id b) hrest
        refine ⟨bitmaps, hok, fun segment_id => ?_⟩
        rw [hlookup]
        by_cases hmem : bitmap_file segment_id ∈ files
        · grind
        · rw [if_neg hmem]
          by_cases hid : segment_id = b.segment_id
          · subst hid
            rw [if_pos List.mem_cons_self, AList.lookup_insert]
            exact (saved_eq_some.2 ⟨bytes, hbytes, hload⟩).symm
          · rw [AList.lookup_insert_ne hid, if_neg]
            simp only [List.mem_cons, hmem, or_false]
            exact fun h => hid (bitmap_file_injective h)
      · rw [if_neg hend]
        obtain ⟨bitmaps, hok, hlookup⟩ := ih acc hrest
        grind [ends_with_bitmap_file]

/-- **A manager opened over named bitmaps holds exactly the saved ones.** -/
theorem new_of_wellNamed (hs : WellNamed deps s) (enable_deletion_log : Bool) :
    ∃ m, new deps enable_deletion_log s = .ok m ∧ m.dirty_segments = ∅ ∧
      (∀ log, m.deletion_log = some log → log.log_path = "deletions.log") ∧
      ∀ segment_id, m.bitmaps.lookup segment_id = saved deps s segment_id := by
  obtain ⟨bitmaps, hok, hlookup⟩ := load_bitmaps_loop_spec hs s.keys ∅
    fun file hfile _ => AList.mem_keys.2 hfile
  refine ⟨⟨bitmaps, if enable_deletion_log then
    some (DeletionLog.new deps s "deletions.log") else none, ∅⟩, ?_, rfl, ?_, fun segment_id => ?_⟩
  · simp only [new, hok]
    rfl
  · intro log hlog
    cases enable_deletion_log with
    | false => simp at hlog
    | true =>
        simp only [if_true, Option.some.injEq] at hlog
        rw [← hlog, DeletionLog.new]
        split <;> rfl
  · rw [hlookup]
    split
    · rfl
    · rename_i hmem
      have hnone : AList.lookup (bitmap_file segment_id) s = none :=
        AList.lookup_eq_none.2 hmem
      simp [saved, hnone]

end DeletionManager

end Manager

end Laurus
