import Laurus.Deletion.Durability

/-!
# Counts, snapshots and differences of bitmaps

Bitmaps are held side by side, and every call is on one of them. Each counts the
documents it marks (`Sound.step`), and what later calls mark in it is what it answers
(`is_deleted_run`), so a bitmap that none of them names stays as it is. The range of all
`u64` is left out: its documents may be one more than a count can say
(`bitmaps_spec_counterexample`), which is why its callers end at one below.
-/

namespace Laurus

namespace DeletionBitmap

/-- **A counted bitmap**: the count is that of the marked documents, all in range. -/
structure Counted (b : DeletionBitmap) : Prop where
  count : b.deleted_count.toNat = b.deleted_docs.card
  in_range : ∀ doc_id ∈ b.deleted_docs, b.min_doc_id ≤ doc_id ∧ doc_id ≤ b.max_doc_id

/-- The range of all ids. -/
def Full (min_doc_id max_doc_id : UInt64) : Prop :=
  min_doc_id = 0 ∧ max_doc_id = 0xFFFFFFFFFFFFFFFF

/-- A counted bitmap over a range that is not full, under a name that a file can hold. -/
structure Sound (b : DeletionBitmap) : Prop where
  counted : Counted b
  partial_range : ¬ Full b.min_doc_id b.max_doc_id
  named : IdFits b.segment_id

variable {b b' other : DeletionBitmap} {doc_id now : UInt64} {newly : Bool}

theorem card_lt_of_range {docs : Finset UInt64} {low high : UInt64}
    (hrange : ∀ doc_id ∈ docs, low ≤ doc_id ∧ doc_id ≤ high) (hfull : ¬ Full low high) :
    docs.card < 2 ^ 64 := by
  -- an id out of range
  obtain ⟨out, hout, hlt⟩ : ∃ out : ℕ, out < 2 ^ 64 ∧ ∀ doc_id ∈ docs, doc_id.toNat ≠ out := by
    by_cases hlow : low = 0
    · refine ⟨2 ^ 64 - 1, by omega, fun doc_id hdoc heq => hfull ⟨hlow, ?_⟩⟩
      have hle := UInt64.le_iff_toNat_le.1 (hrange doc_id hdoc).2
      have hhigh := high.toNat_lt
      refine UInt64.toNat_inj.1 ?_
      grind
    · refine ⟨0, by omega, fun doc_id hdoc heq => hlow ?_⟩
      have hle := UInt64.le_iff_toNat_le.1 (hrange doc_id hdoc).1
      refine UInt64.toNat_inj.1 ?_
      grind
  have hsub : docs.image UInt64.toNat ⊆ (Finset.range (2 ^ 64)).erase out := by
    intro n hn
    obtain ⟨doc_id, hdoc, rfl⟩ := Finset.mem_image.1 hn
    exact Finset.mem_erase.2 ⟨hlt doc_id hdoc, Finset.mem_range.2 doc_id.toNat_lt⟩
  have hcard := Finset.card_le_card hsub
  rw [Finset.card_image_of_injective _ fun _ _ h => UInt64.toNat_inj.1 h,
    Finset.card_erase_of_mem (Finset.mem_range.2 hout), Finset.card_range] at hcard
  omega

theorem Sound.card_lt (h : Sound b) : b.deleted_docs.card < 2 ^ 64 :=
  card_lt_of_range h.counted.in_range h.partial_range

theorem sound_new {segment_id : String} {min_doc_id max_doc_id : UInt64}
    (hfull : ¬ Full min_doc_id max_doc_id) (hid : IdFits segment_id) :
    Sound (DeletionBitmap.new segment_id min_doc_id max_doc_id now) :=
  ⟨⟨rfl, fun _ h => absurd h (Finset.notMem_empty _)⟩, hfull, hid⟩

/-! ## One call -/

theorem left_delete_document (b : DeletionBitmap) (doc_id now : UInt64) :
    (¬ (b.min_doc_id ≤ doc_id ∧ doc_id ≤ b.max_doc_id) ∨ doc_id ∈ b.deleted_docs) ∧
        BitmapCall.left b (b.delete_document doc_id now) = b ∨
      (b.min_doc_id ≤ doc_id ∧ doc_id ≤ b.max_doc_id) ∧ doc_id ∉ b.deleted_docs ∧
        BitmapCall.left b (b.delete_document doc_id now) =
          { b with
            deleted_docs := insert doc_id b.deleted_docs
            deleted_count := b.deleted_count + 1
            last_modified := now
            version := b.version + 1 } := by
  rw [delete_document]
  split
  · rename_i hout
    refine Or.inl ⟨Or.inl ?_, rfl⟩
    grind
  · rename_i hin
    rw [not_or, UInt64.not_lt, UInt64.not_lt] at hin
    split
    · rename_i hmem
      exact Or.inl ⟨Or.inr hmem, rfl⟩
    · rename_i hmem
      exact Or.inr ⟨hin, hmem, rfl⟩

theorem left_undelete_document (b : DeletionBitmap) (doc_id now : UInt64) :
    (¬ (b.min_doc_id ≤ doc_id ∧ doc_id ≤ b.max_doc_id) ∨ doc_id ∉ b.deleted_docs) ∧
        BitmapCall.left b (b.undelete_document doc_id now) = b ∨
      (b.min_doc_id ≤ doc_id ∧ doc_id ≤ b.max_doc_id) ∧ doc_id ∈ b.deleted_docs ∧
        BitmapCall.left b (b.undelete_document doc_id now) =
          { b with
            deleted_docs := b.deleted_docs.erase doc_id
            deleted_count := b.deleted_count - 1
            last_modified := now
            version := b.version + 1 } := by
  rw [undelete_document]
  split
  · rename_i hout
    refine Or.inl ⟨Or.inl ?_, rfl⟩
    grind
  · rename_i hin
    rw [not_or, UInt64.not_lt, UInt64.not_lt] at hin
    split
    · rename_i hmem
      exact Or.inr ⟨hin, hmem, rfl⟩
    · rename_i hmem
      exact Or.inl ⟨Or.inr hmem, rfl⟩

theorem toNat_ofNat_card {docs : Finset UInt64} (h : docs.card < 2 ^ 64) :
    (UInt64.ofNat docs.card).toNat = docs.card := UInt64.toNat_ofNat_of_lt h

theorem Sound.delete_document (h : Sound b) (doc_id now : UInt64) :
    Sound (BitmapCall.left b (b.delete_document doc_id now)) := by
  rcases left_delete_document b doc_id now with ⟨-, heq⟩ | ⟨hin, hmem, heq⟩
  · rwa [heq]
  · rw [heq]
    have hrange : ∀ id ∈ insert doc_id b.deleted_docs, b.min_doc_id ≤ id ∧ id ≤ b.max_doc_id := by
      intro id hid
      rcases Finset.mem_insert.1 hid with rfl | hid
      · exact hin
      · exact h.counted.in_range id hid
    have hlt := card_lt_of_range hrange h.partial_range
    rw [Finset.card_insert_of_notMem hmem] at hlt
    refine ⟨⟨?_, hrange⟩, h.partial_range, h.named⟩
    have hcount := h.counted.count
    rw [UInt64.toNat_add, Finset.card_insert_of_notMem hmem, hcount]
    exact Nat.mod_eq_of_lt hlt

theorem Sound.undelete_document (h : Sound b) (doc_id now : UInt64) :
    Sound (BitmapCall.left b (b.undelete_document doc_id now)) := by
  rcases left_undelete_document b doc_id now with ⟨-, heq⟩ | ⟨-, hmem, heq⟩
  · rwa [heq]
  · rw [heq]
    refine ⟨⟨?_, fun id hid => h.counted.in_range id (Finset.mem_of_mem_erase hid)⟩,
      h.partial_range, h.named⟩
    have hcount := h.counted.count
    grind [UInt64.toNat_sub_of_le, UInt64.le_iff_toNat_le]

theorem Sound.snapshot (h : Sound b) : Sound b.snapshot :=
  ⟨⟨toNat_ofNat_card h.card_lt, h.counted.in_range⟩, h.partial_range, h.named⟩

theorem Sound.difference (h : Sound b) (other : DeletionBitmap) (now : UInt64) :
    Sound (b.difference other now) := by
  have hrange : ∀ id ∈ b.deleted_docs \ other.deleted_docs,
      b.min_doc_id ≤ id ∧ id ≤ b.max_doc_id := fun id hid =>
    h.counted.in_range id (Finset.mem_sdiff.1 hid).1
  exact ⟨⟨toNat_ofNat_card (card_lt_of_range hrange h.partial_range), hrange⟩, h.partial_range,
    h.named⟩

end DeletionBitmap

/-! ## Runs of calls -/

namespace BitmapCall

/-- The bitmap that a call marks in. -/
def target : BitmapCall → Option ℕ
  | delete_document cell _ _ => some cell
  | undelete_document cell _ _ => some cell
  | _ => none

/-- Whether a call marks a document of a bitmap, or takes its mark. -/
def mark (cell : ℕ) (doc_id : UInt64) : BitmapCall → Option Bool
  | delete_document cell' doc_id' _ => if cell' = cell ∧ doc_id' = doc_id then some true else none
  | undelete_document cell' doc_id' _ =>
    if cell' = cell ∧ doc_id' = doc_id then some false else none
  | _ => none

/-- The last mark of a document of a bitmap. -/
def last_mark (cell : ℕ) (doc_id : UInt64) (calls : List BitmapCall) : Option Bool :=
  (calls.filterMap (mark cell doc_id)).getLast?

/-- Calls one after the other. -/
def run (cells : List DeletionBitmap) (calls : List BitmapCall) : List DeletionBitmap :=
  calls.foldl step cells

/-- What a call does to one bitmap. -/
def on_cell (cell : ℕ) (b : DeletionBitmap) : BitmapCall → DeletionBitmap
  | delete_document cell' doc_id now =>
    if cell' = cell then left b (b.delete_document doc_id now) else b
  | undelete_document cell' doc_id now =>
    if cell' = cell then left b (b.undelete_document doc_id now) else b
  | _ => b

variable {cells : List DeletionBitmap} {b : DeletionBitmap} {k : ℕ} {calls : List BitmapCall}

theorem getElem?_append_of_some {added : List DeletionBitmap} (h : cells[k]? = some b) :
    (cells ++ added)[k]? = some b := by grind

theorem getElem?_step (call : BitmapCall) (h : cells[k]? = some b) :
    (step cells call)[k]? = some (on_cell k b call) := by
  rcases call with ⟨cell, doc_id, now⟩ | ⟨cell, doc_id, now⟩ | ⟨cell⟩ | ⟨newer, older, now⟩
  · rw [step, List.getElem?_modify, h, on_cell]
    rfl
  · rw [step, List.getElem?_modify, h, on_cell]
    rfl
  · exact getElem?_append_of_some h
  · exact getElem?_append_of_some h

theorem sound_step (h : ∀ b ∈ cells, b.Sound) (call : BitmapCall) :
    ∀ b ∈ step cells call, b.Sound := by
  have hmodify : ∀ (cell : ℕ) (f : DeletionBitmap → DeletionBitmap),
      (∀ b, b.Sound → (f b).Sound) → ∀ b ∈ cells.modify cell f, b.Sound := by
    grind [List.mem_iff_getElem?]
  have hadd : ∀ found : Option DeletionBitmap, (∀ b, found = some b → b.Sound) →
      ∀ b ∈ cells ++ found.toList, b.Sound := by grind
  rcases call with ⟨cell, doc_id, now⟩ | ⟨cell, doc_id, now⟩ | ⟨cell⟩ | ⟨newer, older, now⟩
  · exact hmodify cell _ fun b hb => hb.delete_document doc_id now
  · exact hmodify cell _ fun b hb => hb.undelete_document doc_id now
  · refine hadd _ fun b hb => ?_
    obtain ⟨b', hb', rfl⟩ := Option.map_eq_some_iff.1 hb
    exact (h b' (List.mem_of_getElem? hb')).snapshot
  · refine hadd _ fun b hb => ?_
    obtain ⟨b', hb', hrest⟩ := Option.bind_eq_some_iff.1 hb
    obtain ⟨other, -, rfl⟩ := Option.map_eq_some_iff.1 hrest
    exact (h b' (List.mem_of_getElem? hb')).difference other now

/-- **Every bitmap of a run is sound.** -/
theorem sound_run (calls : List BitmapCall) (h : ∀ b ∈ cells, b.Sound) :
    ∀ b ∈ run cells calls, b.Sound := by
  induction calls generalizing cells with
  | nil => exact h
  | cons call calls ih => exact ih (sound_step h call)

/-- A call keeps the range of a bitmap, and its marks but for the one it sets. -/
theorem on_cell_spec (call : BitmapCall) (b : DeletionBitmap) (k : ℕ) :
    (on_cell k b call).min_doc_id = b.min_doc_id ∧
      (on_cell k b call).max_doc_id = b.max_doc_id ∧
      ∀ doc_id, (on_cell k b call).is_deleted doc_id =
        if b.min_doc_id ≤ doc_id ∧ doc_id ≤ b.max_doc_id then
          (mark k doc_id call).getD (b.is_deleted doc_id)
        else b.is_deleted doc_id := by
  have hsame : ∀ doc_id, b.is_deleted doc_id =
      if b.min_doc_id ≤ doc_id ∧ doc_id ≤ b.max_doc_id then b.is_deleted doc_id
      else b.is_deleted doc_id := fun doc_id => (ite_self _).symm
  rcases call with ⟨cell, id, now⟩ | ⟨cell, id, now⟩ | ⟨cell⟩ | ⟨newer, older, now⟩
  · by_cases hcell : cell = k
    · simp only [on_cell, mark, hcell, if_true, true_and]
      rcases b.left_delete_document id now with ⟨hsee, heq⟩ | ⟨hin, -, heq⟩
      · rw [heq]
        refine ⟨rfl, rfl, fun doc_id => ?_⟩
        by_cases hid : id = doc_id
        · subst hid
          rw [if_pos rfl, Option.getD_some]
          split
          · rename_i hin
            exact decide_eq_true (hsee.resolve_left (not_not_intro hin))
          · rfl
        grind
      · rw [heq]
        refine ⟨rfl, rfl, fun doc_id => ?_⟩
        by_cases hid : id = doc_id
        · subst hid
          rw [if_pos hin, if_pos rfl]
          exact decide_eq_true (Finset.mem_insert_self _ _)
        · rw [if_neg hid, Option.getD_none, ite_self]
          refine decide_eq_decide.2 ?_
          grind
    · simp only [on_cell, mark, hcell, if_false, false_and]
      exact ⟨trivial, trivial, hsame⟩
  · by_cases hcell : cell = k
    · simp only [on_cell, mark, hcell, if_true, true_and]
      rcases b.left_undelete_document id now with ⟨hsee, heq⟩ | ⟨hin, -, heq⟩
      · rw [heq]
        refine ⟨rfl, rfl, fun doc_id => ?_⟩
        by_cases hid : id = doc_id
        · subst hid
          rw [if_pos rfl, Option.getD_some]
          split
          · rename_i hin
            exact decide_eq_false (hsee.resolve_left (not_not_intro hin))
          · rfl
        grind
      · rw [heq]
        refine ⟨rfl, rfl, fun doc_id => ?_⟩
        by_cases hid : id = doc_id
        · subst hid
          rw [if_pos hin, if_pos rfl]
          exact decide_eq_false (Finset.notMem_erase _ _)
        · rw [if_neg hid, Option.getD_none, ite_self]
          refine decide_eq_decide.2 ?_
          grind
    · simp only [on_cell, mark, hcell, if_false, false_and]
      exact ⟨trivial, trivial, hsame⟩
  · exact ⟨rfl, rfl, hsame⟩
  · exact ⟨rfl, rfl, hsame⟩

theorem last_mark_cons (cell : ℕ) (doc_id : UInt64) (call : BitmapCall) (calls : List BitmapCall)
    (before : Bool) : (last_mark cell doc_id (call :: calls)).getD before =
      (last_mark cell doc_id calls).getD ((mark cell doc_id call).getD before) := by
  rw [last_mark, last_mark, List.filterMap_cons]
  grind

/-- **A bitmap answers what was last marked in it.** -/
theorem is_deleted_run (calls : List BitmapCall) (h : cells[k]? = some b) :
    ∃ b', (run cells calls)[k]? = some b' ∧ b'.min_doc_id = b.min_doc_id ∧
      b'.max_doc_id = b.max_doc_id ∧
      ∀ doc_id, b'.is_deleted doc_id =
        if b.min_doc_id ≤ doc_id ∧ doc_id ≤ b.max_doc_id then
          (last_mark k doc_id calls).getD (b.is_deleted doc_id)
        else b.is_deleted doc_id := by
  induction calls generalizing cells b with
  | nil => exact ⟨b, h, rfl, rfl, fun doc_id => (ite_self _).symm⟩
  | cons call calls ih =>
      obtain ⟨hmin, hmax, hmark⟩ := on_cell_spec call b k
      obtain ⟨b', hb', hmin', hmax', hmark'⟩ := ih (getElem?_step call h)
      refine ⟨b', hb', hmin'.trans hmin, hmax'.trans hmax, fun doc_id => ?_⟩
      grind [last_mark_cons]

theorem run_of_untouched (calls : List BitmapCall) (h : cells[k]? = some b)
    (hcalls : ∀ call ∈ calls, call.target ≠ some k) : (run cells calls)[k]? = some b := by
  induction calls generalizing cells with
  | nil => exact h
  | cons call calls ih =>
      rw [List.forall_mem_cons] at hcalls
      refine ih ?_ hcalls.2
      rw [getElem?_step call h]
      rcases call with ⟨cell, doc_id, now⟩ | ⟨cell, doc_id, now⟩ | ⟨cell⟩ | ⟨newer, older, now⟩
      · exact congrArg some (if_neg fun heq => hcalls.1 (congrArg some heq))
      · exact congrArg some (if_neg fun heq => hcalls.1 (congrArg some heq))
      · rfl
      · rfl

end BitmapCall

/-! ## The bitmaps of a run -/

open BitmapCall DeletionManager

/-- **What bitmaps side by side say**, of themselves and after any calls. -/
structure BitmapsAgree (deps : DeletionDeps) (cells : List DeletionBitmap) : Prop where
  counted : ∀ b ∈ cells, b.Counted
  /-- A document in range is deleted if its last mark says so, or else as before. -/
  answers : ∀ k b, cells[k]? = some b → ∀ later, ∃ b', (run cells later)[k]? = some b' ∧
    ∀ doc_id, b'.is_deleted doc_id =
      if b.min_doc_id ≤ doc_id ∧ doc_id ≤ b.max_doc_id then
        (last_mark k doc_id later).getD (b.is_deleted doc_id)
      else b.is_deleted doc_id
  /-- A snapshot says what its original says, and no call on another bitmap changes it. -/
  snapshot : ∀ k b, cells[k]? = some b → ∃ copy, step cells (.snapshot k) = cells ++ [copy] ∧
    copy.deleted_count = b.deleted_count ∧ copy.min_doc_id = b.min_doc_id ∧
    copy.max_doc_id = b.max_doc_id ∧ (∀ doc_id, copy.is_deleted doc_id = b.is_deleted doc_id) ∧
    ∀ later, (∀ call ∈ later, call.target ≠ some cells.length) →
      (run (cells ++ [copy]) later)[cells.length]? = some copy
  /-- A difference is of what is deleted in the newer and not in the older. -/
  difference : ∀ i j newer older now, cells[i]? = some newer → cells[j]? = some older →
    ∃ diff, step cells (.difference i j now) = cells ++ [diff] ∧ diff.Counted ∧
      ∀ doc_id, diff.is_deleted doc_id = (newer.is_deleted doc_id && !older.is_deleted doc_id)
  /-- What is written is read back. -/
  round_trip : ∀ b ∈ cells, ∀ bytes, bitmap_bytes deps b = .ok bytes →
    load_bitmap deps bytes = .ok b

/-- The bitmaps of segments, each under a name with its range, as of some time. -/
def open_bitmaps (segments : List (RustString × UInt64 × UInt64 × UInt64)) :
    List DeletionBitmap :=
  segments.map fun segment =>
    DeletionBitmap.new segment.1.text segment.2.1 segment.2.2.1 segment.2.2.2

variable {deps : DeletionDeps}

theorem bitmapsAgree_of_sound (hR : deps.roaring.Lawful) {cells : List DeletionBitmap}
    (h : ∀ b ∈ cells, b.Sound) : BitmapsAgree deps cells where
  counted b hb := (h b hb).counted
  answers k b hb later := by
    obtain ⟨b', hb', -, -, hmark⟩ := is_deleted_run later hb
    exact ⟨b', hb', hmark⟩
  snapshot k b hb := by
    have hsound := h b (List.mem_of_getElem? hb)
    refine ⟨b.snapshot, ?_, ?_, rfl, rfl, fun _ => rfl, fun later hlater => ?_⟩
    · rw [step, hb]
      rfl
    · refine UInt64.toNat_inj.1 ?_
      rw [hsound.counted.count]
      exact DeletionBitmap.toNat_ofNat_card hsound.card_lt
    · exact run_of_untouched later List.getElem?_concat_length hlater
  difference i j newer older now hnewer holder := by
    have hsound := h newer (List.mem_of_getElem? hnewer)
    refine ⟨newer.difference older now, ?_, (hsound.difference older now).counted,
      fun doc_id => ?_⟩
    · rw [step, hnewer, holder]
      rfl
    · rw [DeletionBitmap.is_deleted, DeletionBitmap.is_deleted, DeletionBitmap.is_deleted,
        ← decide_not, ← Bool.decide_and]
      exact decide_eq_decide.2 Finset.mem_sdiff
  round_trip b hb bytes hbytes := load_bitmap_bytes hR (h b hb).named hbytes

/-- **Counts, snapshots, differences and files of bitmaps agree with their sets**, over
any ranges but that of all ids, whatever calls were made. -/
theorem bitmaps_spec (hR : deps.roaring.Lawful)
    (segments : List (RustString × UInt64 × UInt64 × UInt64))
    (hranges : ∀ segment ∈ segments, ¬ DeletionBitmap.Full segment.2.1 segment.2.2.1)
    (calls : List BitmapCall) : BitmapsAgree deps (run (open_bitmaps segments) calls) := by
  refine bitmapsAgree_of_sound hR (sound_run calls fun b hb => ?_)
  obtain ⟨segment, hsegment, rfl⟩ := List.mem_map.1 hb
  exact DeletionBitmap.sound_new (hranges segment hsegment)
    (segment.1.fits.trans (by decide))

/-- A document deleted, looked at and undeleted. -/
theorem bitmaps_spec_sample :
    BitmapsAgree sampleDeps (run (open_bitmaps [(⟨"s", by decide⟩, 3, 9, 0)])
      [.delete_document 0 4 1, .snapshot 0, .undelete_document 0 4 2, .difference 1 0 3]) :=
  bitmaps_spec sampleRoaring_lawful _ (by unfold DeletionBitmap.Full; decide) _

/-! ## All ids -/

theorem mark_delete (ids : List UInt64) (doc_id : UInt64) (h : doc_id ∈ ids) :
    last_mark 0 doc_id (ids.map fun id => .delete_document 0 id 0) = some true := by
  have hall : ∀ marked ∈ (ids.map fun id => BitmapCall.delete_document 0 id 0).filterMap
      (mark 0 doc_id), marked = true := by
    simp [mark]
  have hmem : true ∈ (ids.map fun id => BitmapCall.delete_document 0 id 0).filterMap
      (mark 0 doc_id) :=
    List.mem_filterMap.2 ⟨.delete_document 0 doc_id 0, List.mem_map_of_mem h, if_pos ⟨rfl, rfl⟩⟩
  rw [last_mark]
  rcases hlast : ((ids.map fun id => BitmapCall.delete_document 0 id 0).filterMap
      (mark 0 doc_id)).getLast? with _ | marked
  · grind
  · rw [hall marked (List.mem_of_getLast? hlast)]

/-- Every id there is, one after the other. -/
def all_ids : List UInt64 := (List.range UInt64.size).map UInt64.ofNat

theorem mem_all_ids (doc_id : UInt64) : doc_id ∈ all_ids :=
  List.mem_map.2 ⟨doc_id.toNat, List.mem_range.2 doc_id.toNat_lt_size, UInt64.ofNat_toNat⟩

/-- All ids of the full range deleted: no count says how many they are. -/
theorem bitmaps_spec_counterexample :
    ¬ BitmapsAgree sampleDeps
      (run [DeletionBitmap.new "s" 0 0xFFFFFFFFFFFFFFFF 0]
        (all_ids.map fun id => .delete_document 0 id 0)) := by
  intro h
  obtain ⟨b, hb, -, -, hmark⟩ := @is_deleted_run [DeletionBitmap.new "s" 0 0xFFFFFFFFFFFFFFFF 0]
    (DeletionBitmap.new "s" 0 0xFFFFFFFFFFFFFFFF 0) 0
    (all_ids.map fun id => .delete_document 0 id 0) rfl
  have hall : ∀ doc_id, doc_id ∈ b.deleted_docs := by
    intro doc_id
    have hin : (0 : UInt64) ≤ doc_id ∧ doc_id ≤ 0xFFFFFFFFFFFFFFFF := by
      rw [UInt64.le_iff_toNat_le, UInt64.le_iff_toNat_le]
      exact ⟨Nat.zero_le _, Nat.le_of_lt_succ doc_id.toNat_lt⟩
    have heq := (hmark doc_id).trans (if_pos hin)
    rw [mark_delete all_ids doc_id (mem_all_ids doc_id)] at heq
    exact of_decide_eq_true heq
  have hsub : (Finset.range (2 ^ 64)).image UInt64.ofNat ⊆ b.deleted_docs :=
    fun doc_id _ => hall doc_id
  have hcard := Finset.card_le_card hsub
  rw [Finset.card_image_of_injOn, Finset.card_range] at hcard
  · have hcount := (h.counted b (List.mem_of_getElem? hb)).count
    have hlt := b.deleted_count.toNat_lt
    omega
  · intro m hm n hn heq
    have hm' := Finset.mem_range.1 hm
    have hn' := Finset.mem_range.1 hn
    have heq' := congrArg UInt64.toNat heq
    rwa [UInt64.toNat_ofNat', UInt64.toNat_ofNat', Nat.mod_eq_of_lt hm', Nat.mod_eq_of_lt hn'] at heq'

end Laurus
