import Laurus.Deletion.Helpers.Manager
import Mathlib

/-!
# Deletion bitmaps across flush and reload

`Tracked m s P` is the invariant: a bitmap in memory is the saved one
unless its segment is in `P`, and everything saved is in memory. Between
operations `P` is the dirty set; inside `flush` it is also what the
drained list still holds. Every operation keeps it except one branch of
`delete_document`: a log append that fails after the bit was newly set
returns before the dirty mark, and the retry finds the bit set. The run
theorem is therefore over runs that do not take that branch, and a run
that takes it is exhibited.
-/

namespace Laurus

open DeletionManager

variable {deps : DeletionDeps}

/-- **The invariant**, `P` the segments whose file may be behind. -/
structure Tracked (deps : DeletionDeps) (m : DeletionManager) (s : Storage) (P : Finset String) :
    Prop where
  /-- A bitmap is held under its own identifier, which a save can write. -/
  named : ∀ segment_id b, m.bitmaps.lookup segment_id = some b →
    b.segment_id = segment_id ∧ IdFits segment_id
  /-- Every `.delmap` loads, is named by its segment, and is in memory. -/
  known : ∀ name bytes, ends_with name ".delmap" = true → AList.lookup name s = some bytes →
    ∃ b, load_bitmap deps bytes = .ok b ∧ name = bitmap_file b.segment_id ∧
      b.segment_id ∈ m.bitmaps
  /-- What is in memory is saved, or may be behind. -/
  behind : ∀ segment_id b, m.bitmaps.lookup segment_id = some b →
    saved deps s segment_id = some b ∨ segment_id ∈ P
  /-- The log is not a bitmap's file. -/
  log : ∀ log, m.deletion_log = some log → ends_with log.log_path ".delmap" = false

namespace Tracked

variable {m : DeletionManager} {s s' : Storage} {P P' : Finset String} {segment_id : String}

theorem wellNamed (h : Tracked deps m s P) : WellNamed deps s := by
  intro name bytes hname hbytes
  grind [known]

theorem mono (h : Tracked deps m s P) (hP : P ⊆ P') : Tracked deps m s P' :=
  { h with behind := fun sid b hb => (h.behind sid b hb).imp_right fun hmem => hP hmem }

/-- Only the dirty set and the log differ. -/
theorem congr {m' : DeletionManager} (h : Tracked deps m s P) (hb : m'.bitmaps = m.bitmaps)
    (hl : ∀ log, m'.deletion_log = some log → ends_with log.log_path ".delmap" = false) :
    Tracked deps m' s P where
  named := by rw [hb]; exact h.named
  known := by rw [hb]; exact h.known
  behind := by rw [hb]; exact h.behind
  log := hl

theorem same (h : Tracked deps m s P) (hs : SameBitmaps s s') : Tracked deps m s' P where
  named := h.named
  known := by
    intro name bytes hname hbytes
    rw [hs name hname] at hbytes
    exact h.known name bytes hname hbytes
  behind := by
    intro sid b hb
    rw [saved_of_same hs]
    exact h.behind sid b hb
  log := h.log

theorem insert_bitmap {b : DeletionBitmap} (h : Tracked deps m s P) (hb : b.segment_id = segment_id)
    (hid : IdFits segment_id) :
    Tracked deps { m with bitmaps := m.bitmaps.insert segment_id b } s (insert segment_id P) where
  named := by
    grind [AList.lookup_insert, AList.lookup_insert_ne, named]
  known := by
    grind [known, AList.mem_insert]
  behind := by
    grind [AList.lookup_insert_ne, behind]
  log := h.log

theorem insert_same {b : DeletionBitmap} (h : Tracked deps m s P)
    (hb : m.bitmaps.lookup segment_id = some b) :
    Tracked deps { m with bitmaps := m.bitmaps.insert segment_id b } s P := by
  have hlookup : ∀ sid, (m.bitmaps.insert segment_id b).lookup sid = m.bitmaps.lookup sid := by
    grind [AList.lookup_insert, AList.lookup_insert_ne]
  refine ⟨fun sid b' hb' => h.named sid b' ((hlookup sid).symm.trans hb'), ?_,
    fun sid b' hb' => h.behind sid b' ((hlookup sid).symm.trans hb'), h.log⟩
  grind [known, AList.mem_insert]

/-- **A save catches its segment up.** -/
theorem save (hR : deps.roaring.Lawful) {fault : Option SaveFault}
    (h : Tracked deps m s (insert segment_id P))
    (hsave : m.save_bitmap deps s segment_id fault = (.ok (), s')) : Tracked deps m s' P := by
  cases hb : m.bitmaps.lookup segment_id with
  | none =>
      rw [save_bitmap_unknown hb] at hsave
      cases hsave
      refine { h with behind := fun sid b hsid => ?_ }
      rcases h.behind sid b hsid with hsaved | hmem
      · exact Or.inl hsaved
      grind
  | some bitmap =>
      obtain ⟨⟨bytes, hbytes, hfile⟩, hother⟩ := save_bitmap_ok hb hsave
      obtain ⟨hname, hid⟩ := h.named segment_id bitmap hb
      have hload : load_bitmap deps bytes = .ok bitmap :=
        load_bitmap_bytes hR (hname ▸ hid) hbytes
      refine ⟨h.named, fun name bytes' hend hbytes' => ?_, fun sid b hsid => ?_, h.log⟩
      · by_cases hne : name = bitmap_file segment_id
        · subst hne
          rw [hfile, Option.some.injEq] at hbytes'
          subst hbytes'
          exact ⟨bitmap, hload, by rw [hname],
            hname.symm ▸ AList.lookup_isSome.1 (by rw [hb]; rfl)⟩
        grind [known]
      · by_cases heq : sid = segment_id
        · grind [saved_eq_some]
        · have hne : bitmap_file sid ≠ bitmap_file segment_id := fun hf =>
            heq (bitmap_file_injective hf)
          rcases h.behind sid b hsid with hsaved | hmem
          · grind [saved, ends_with_bitmap_file]
          grind

/-- **The loop of `flush`**: what it saved has caught up; what it did not is
dirty again. -/
theorem flush_loop (hR : deps.roaring.Lawful) {faults : String → Option SaveFault}
    (dirty : List String) : ∀ {m m' : DeletionManager} {s s' : Storage}
      {result : Except LaurusError Unit},
      Tracked deps m s (m.dirty_segments ∪ dirty.toFinset) →
      DeletionManager.flush_loop deps faults dirty m s = (result, m', s') →
      Tracked deps m' s' m'.dirty_segments ∧ m'.bitmaps = m.bitmaps ∧
        (result = .ok () → m'.dirty_segments = m.dirty_segments) := by
  induction dirty with
  | nil =>
      intro m m' s s' result h hloop
      cases hloop
      exact ⟨by simpa using h, rfl, fun _ => rfl⟩
  | cons segment_id rest ih =>
      intro m m' s s' result h hloop
      rw [DeletionManager.flush_loop] at hloop
      split at hloop
      · rename_i e s₁ hsave
        cases hloop
        have h' : Tracked deps { m with
            dirty_segments := m.dirty_segments ∪ (segment_id :: rest).toFinset } s
            (m.dirty_segments ∪ (segment_id :: rest).toFinset) := h.congr rfl h.log
        grind [same, save_bitmap_error]
      · rename_i s₁ hsave
        refine ih (h.mono ?_ |>.save hR hsave) hloop
        simp

theorem flush (hR : deps.roaring.Lawful) {m' : DeletionManager} {dirty : List String}
    {faults : String → Option SaveFault} {result : Except LaurusError Unit}
    (h : Tracked deps m s m.dirty_segments) (hdirty : dirty.toFinset = m.dirty_segments)
    (hflush : m.flush deps s dirty faults = (result, m', s')) :
    Tracked deps m' s' m'.dirty_segments ∧ m'.bitmaps = m.bitmaps ∧
      (result = .ok () → m'.dirty_segments = ∅) := by
  have h' : Tracked deps { m with dirty_segments := ∅ } s (∅ ∪ dirty.toFinset) := by
    rw [hdirty, Finset.empty_union]
    exact h.congr rfl h.log
  exact flush_loop hR dirty h' hflush

/-- **What a load brings back is what was in memory**, nothing being behind. -/
theorem reload (h : Tracked deps m s ∅) (enable_deletion_log : Bool) :
    ∃ m', new deps enable_deletion_log s = .ok m' ∧
      ∀ segment_id, m'.bitmaps.lookup segment_id = m.bitmaps.lookup segment_id := by
  obtain ⟨m', hnew, -, -, hlookup⟩ := new_of_wellNamed h.wellNamed enable_deletion_log
  refine ⟨m', hnew, fun segment_id => ?_⟩
  rw [hlookup]
  cases hb : m.bitmaps.lookup segment_id with
  | some b => exact (h.behind segment_id b hb).resolve_right (Finset.notMem_empty _)
  | none =>
      by_contra hsome
      obtain ⟨b, hb'⟩ := Option.ne_none_iff_exists'.1 hsome
      grind [saved_eq_some, known, ends_with_bitmap_file, bitmap_file_injective,
        AList.lookup_eq_none]

theorem of_new {enable_deletion_log : Bool} (hs : WellNamed deps s)
    (hnew : new deps enable_deletion_log s = .ok m) : Tracked deps m s m.dirty_segments := by
  obtain ⟨m', hnew', -, hlog, hlookup⟩ := new_of_wellNamed hs enable_deletion_log
  rw [hnew, Except.ok.injEq] at hnew'
  subst hnew'
  have hsaved : ∀ {sid b}, m.bitmaps.lookup sid = some b → b.segment_id = sid ∧ IdFits sid := by
    intro sid b hb
    rw [hlookup] at hb
    obtain ⟨bytes, hfile, hload⟩ := saved_eq_some.1 hb
    obtain ⟨b', hload', hname⟩ := hs _ bytes (ends_with_bitmap_file sid) hfile
    grind [bitmap_file_injective, segment_id_fits_of_load]
  refine ⟨fun sid b hb => hsaved hb, fun name bytes hname hbytes => ?_, fun sid b hb => ?_,
    fun log h => by rw [hlog log h]; decide⟩
  · obtain ⟨b, hload, rfl⟩ := hs name bytes hname hbytes
    refine ⟨b, hload, rfl, AList.lookup_isSome.1 ?_⟩
    rw [hlookup, saved_eq_some.2 ⟨bytes, hbytes, hload⟩]
    rfl
  grind

end Tracked

/-! ## Deleting -/

theorem DeletionBitmap.delete_document_ok {b b' : DeletionBitmap} {doc_id now : UInt64}
    {was_deleted : Bool} (h : b.delete_document doc_id now = .ok (was_deleted, b')) :
    b'.segment_id = b.segment_id ∧ doc_id ∈ b'.deleted_docs ∧ b.min_doc_id ≤ doc_id ∧
      doc_id ≤ b.max_doc_id ∧ (was_deleted = false → b' = b ∧ doc_id ∈ b.deleted_docs) ∧
      (doc_id ∈ b.deleted_docs → was_deleted = false) := by
  grind [delete_document]

theorem DeletionLog.record_ne_error (entry : DeletionLogEntry) (e : LaurusError) :
    DeletionLog.record deps entry ≠ .error e := by
  obtain ⟨w, hw, hclose⟩ := StructWriter.close_of_emits deps.crc32
    (Comp.Emits.bind (f := fun _ => StructWriter.write_u8 0x0A)
      (StructWriter.emits_string (deps.to_json entry)) (StructWriter.emits_u8 0x0A))
  intro he
  rw [DeletionLog.record, hw] at he
  exact absurd (he.symm.trans hclose) (by simp)

/-- The log append does not fail on a document this deletion would be the
first to mark: one in the range of a segment the manager knows, whose bit
is not set. -/
def AppendHolds (st : DeletionState) : DeletionOp → Prop
  | .delete_document segment_id doc_id _ _ (some _) =>
      st.manager.deletion_log ≠ none →
      (∃ b, st.manager.bitmaps.lookup segment_id = some b ∧
        b.min_doc_id ≤ doc_id ∧ doc_id ≤ b.max_doc_id) →
      st.manager.is_deleted segment_id doc_id = true
  | _ => True

namespace Tracked

variable {m m' : DeletionManager} {s s' : Storage} {segment_id reason : String}
variable {doc_id now : UInt64} {fault : Option WriteFault} {result : Except LaurusError Bool}

theorem log_deletion {log log' : DeletionLog} {r : Except LaurusError Unit}
    (hlog : ends_with log.log_path ".delmap" = false)
    (h : log.log_deletion deps s segment_id doc_id reason now fault = (r, log', s')) :
    SameBitmaps s s' ∧ ends_with log'.log_path ".delmap" = false := by
  grind [DeletionLog.log_deletion, SameBitmaps.refl, SameBitmaps.appendTo]

/-- **A deletion keeps the invariant** when it returns normally, and when
its log append holds. -/
theorem delete_document (h : Tracked deps m s m.dirty_segments)
    (hdel : m.delete_document deps s segment_id doc_id reason now fault = (result, m', s'))
    (hguard : (∃ r, result = .ok r) ∨
      AppendHolds ⟨m, s⟩ (.delete_document segment_id doc_id reason now fault)) :
    Tracked deps m' s' m'.dirty_segments := by
  rw [DeletionManager.delete_document] at hdel
  split at hdel
  · cases hdel; exact h
  rename_i b hb
  split at hdel
  · cases hdel; exact h
  rename_i was_deleted b' hbit
  obtain ⟨hid, hmem, hmin, hmax, hold, hnew⟩ := DeletionBitmap.delete_document_ok hbit
  obtain ⟨hname, hfits⟩ := h.named segment_id b hb
  -- whatever the log does, the bit costs its segment's mark, unless it was set
  have hbits : Tracked deps { m with bitmaps := m.bitmaps.insert segment_id b' } s
      (if was_deleted then insert segment_id m.dirty_segments else m.dirty_segments) := by
    cases was_deleted with
    | true => exact h.insert_bitmap (hid.trans hname) hfits
    | false => obtain ⟨rfl, -⟩ := hold rfl; exact h.insert_same hb
  simp only at hdel
  split at hdel
  · cases hdel
    cases was_deleted with
    | true => exact hbits.congr rfl hbits.log
    | false => exact hbits
  · rename_i log hlog
    generalize hl : log.log_deletion deps s segment_id doc_id reason now fault = out at hdel
    obtain ⟨r, log', s₁⟩ := out
    obtain ⟨hsame, hpath⟩ := log_deletion (h.log log hlog) hl
    have hnext : Tracked deps
        { m with bitmaps := m.bitmaps.insert segment_id b', deletion_log := some log' } s₁
        (if was_deleted then insert segment_id m.dirty_segments else m.dirty_segments) := by
      refine Tracked.same (s := s) ?_ hsame
      grind [congr]
    cases r with
    | ok =>
        cases hdel
        cases was_deleted with
        | true => exact hnext.congr rfl hnext.log
        | false => exact hnext
    | error e =>
        cases hdel
        rcases hguard with ⟨r, hr⟩ | hguard
        · cases hr
        -- the append failed, so the bit was set before
        · have hfalse : was_deleted = false := by
            cases fault with
            | none =>
                rw [DeletionLog.log_deletion] at hl
                split at hl
                · grind [DeletionLog.record_ne_error]
                · cases hl
            | some f =>
                have hset := hguard (by simp [hlog]) ⟨b, hb, hmin, hmax⟩
                simp only [is_deleted, hb, DeletionBitmap.is_deleted, decide_eq_true_eq] at hset
                exact hnew hset
          subst hfalse
          exact hnext

theorem step (hR : deps.roaring.Lawful) {st st' : DeletionState} {op : DeletionOp}
    (h : Tracked deps st.manager st.storage st.manager.dirty_segments)
    (hstep : (DeletionStep deps).guarded AppendHolds st op st') :
    Tracked deps st'.manager st'.storage st'.manager.dirty_segments := by
  obtain ⟨hguard, hstep⟩ := hstep
  cases hstep with
  | @initialize_segment m s segment_id min_doc_id max_doc_id now =>
      simp only [initialize_segment]
      split
      · exact h
      · have hfits : IdFits segment_id.text := lt_trans segment_id.fits (by decide)
        exact (h.insert_bitmap (b := DeletionBitmap.new segment_id.text min_doc_id max_doc_id now)
          rfl hfits).congr rfl h.log
  | delete_document hdel => exact h.delete_document hdel (Or.inr hguard)
  | flush _ hdirty hflush => exact (h.flush hR hdirty hflush).1
  | reload hnew => exact Tracked.of_new h.wellNamed hnew
  | reload_failed _ => exact h

end Tracked

/-! ## What holds at every state of a run -/

/-- A manager just opened over a storage whose bitmap files are named by
their segments; the empty storage is one. -/
def Opened (deps : DeletionDeps) (st : DeletionState) : Prop :=
  WellNamed deps st.storage ∧
    ∃ enable_deletion_log, new deps enable_deletion_log st.storage = .ok st.manager

/-- Each segment whose bitmap in memory differs from its saved one is dirty. -/
def DirtyTracked (deps : DeletionDeps) (st : DeletionState) : Prop :=
  ∀ segment_id b, st.manager.bitmaps.lookup segment_id = some b →
    saved deps st.storage segment_id ≠ some b → segment_id ∈ st.manager.dirty_segments

/-- A flush that succeeds, then a reload, yield exactly the bitmaps in
memory. -/
def FlushDurable (deps : DeletionDeps) (st : DeletionState) : Prop :=
  ∀ dirty faults m' s', dirty.Nodup → dirty.toFinset = st.manager.dirty_segments →
    st.manager.flush deps st.storage dirty faults = (.ok (), m', s') →
    ∀ enable_deletion_log, ∃ m'', new deps enable_deletion_log s' = .ok m'' ∧
      ∀ segment_id, m''.bitmaps.lookup segment_id = st.manager.bitmaps.lookup segment_id

/-- A deletion retried with success, a flush that succeeds and a reload
leave the document deleted. -/
def RetryDurable (deps : DeletionDeps) (st : DeletionState) (segment_id : String)
    (doc_id : UInt64) : Prop :=
  ∀ reason now fault r m₁ s₁,
    st.manager.delete_document deps st.storage segment_id doc_id reason now fault =
      (.ok r, m₁, s₁) →
    ∀ dirty faults m₂ s₂, dirty.Nodup → dirty.toFinset = m₁.dirty_segments →
      m₁.flush deps s₁ dirty faults = (.ok (), m₂, s₂) →
      ∀ enable_deletion_log, ∃ m₃, new deps enable_deletion_log s₂ = .ok m₃ ∧
        m₃.is_deleted segment_id doc_id = true

/-- A deletion `op` that returned an error left the document undeleted in
memory, or is made durable by retrying it and flushing. -/
def FailedDeleteSettled (deps : DeletionDeps) (st : DeletionState) : DeletionOp → Prop
  | .delete_document segment_id doc_id reason now fault =>
      ∀ e m' s', st.manager.delete_document deps st.storage segment_id doc_id reason now fault =
          (.error e, m', s') →
        m'.is_deleted segment_id doc_id = false ∨ RetryDurable deps ⟨m', s'⟩ segment_id doc_id
  | _ => True

namespace Tracked

variable {m : DeletionManager} {s : Storage}

theorem dirtyTracked (h : Tracked deps m s m.dirty_segments) : DirtyTracked deps ⟨m, s⟩ := fun segment_id b hb hne =>
  (h.behind segment_id b hb).resolve_left hne

theorem flushDurable (hR : deps.roaring.Lawful) (h : Tracked deps m s m.dirty_segments) :
    FlushDurable deps ⟨m, s⟩ := by
  intro dirty faults m' s' _ hdirty hflush enable_deletion_log
  obtain ⟨h', hbitmaps, hempty⟩ := h.flush hR hdirty hflush
  rw [hempty rfl] at h'
  rw [← hbitmaps]
  exact h'.reload enable_deletion_log

theorem is_deleted_of_ok {m m' : DeletionManager} {s s' : Storage} {segment_id reason : String}
    {doc_id now : UInt64} {fault : Option WriteFault} {r : Bool}
    (hdel : m.delete_document deps s segment_id doc_id reason now fault = (.ok r, m', s')) :
    m'.is_deleted segment_id doc_id = true := by
  rw [DeletionManager.delete_document] at hdel
  split at hdel
  · cases hdel
  split at hdel
  · cases hdel
  rename_i was_deleted b' hbit
  have hmem := (DeletionBitmap.delete_document_ok hbit).2.1
  simp only at hdel
  split at hdel
  · cases hdel
    cases r <;>
      simp [is_deleted, mark_dirty, DeletionBitmap.is_deleted, hmem]
  · rename_i log _
    generalize log.log_deletion deps s segment_id doc_id reason now fault = out at hdel
    obtain ⟨r', log', s₁⟩ := out
    cases r' with
    | error e => cases hdel
    | ok =>
        cases hdel
        cases r <;>
          simp [is_deleted, mark_dirty, DeletionBitmap.is_deleted, hmem]

theorem retryDurable (hR : deps.roaring.Lawful) (h : Tracked deps m s m.dirty_segments)
    (segment_id : String) (doc_id : UInt64) : RetryDurable deps ⟨m, s⟩ segment_id doc_id := by
  intro reason now fault r m₁ s₁ hdel dirty faults m₂ s₂ hnodup hdirty hflush enable_deletion_log
  have h₁ : Tracked deps m₁ s₁ m₁.dirty_segments := h.delete_document hdel (Or.inl ⟨r, rfl⟩)
  obtain ⟨m₃, hnew, hlookup⟩ := flushDurable hR h₁ dirty faults m₂ s₂ hnodup hdirty hflush
    enable_deletion_log
  have hset := is_deleted_of_ok hdel
  grind [is_deleted]

end Tracked

/-- **Deletion bitmaps survive flush and reload**, in every run whose log
appends hold: at every state it reaches, what differs from its file is
dirty, a successful flush and a reload bring back the bitmaps in memory,
and a deletion that errs there is undone or redoable. -/
theorem bitmaps_survive_flush_and_reload (hR : deps.roaring.Lawful) {st₀ st : DeletionState}
    {ops : List DeletionOp} (hopen : Opened deps st₀)
    (hrun : Run ((DeletionStep deps).guarded AppendHolds) st₀ ops st) :
    DirtyTracked deps st ∧ FlushDurable deps st ∧
      ∀ op, AppendHolds st op → FailedDeleteSettled deps st op := by
  obtain ⟨hnamed, _, hnew⟩ := hopen
  have htracked : Tracked deps st.manager st.storage st.manager.dirty_segments :=
    hrun.invariant (fun st => Tracked deps st.manager st.storage st.manager.dirty_segments)
      (fun h hstep => h.step hR hstep) (Tracked.of_new hnamed hnew)
  refine ⟨htracked.dirtyTracked, htracked.flushDurable hR, fun op hguard => ?_⟩
  cases op with
  | delete_document segment_id doc_id reason now fault =>
      intro e m' s' hdel
      exact Or.inr ((htracked.delete_document hdel (Or.inr hguard)).retryDurable hR
        segment_id doc_id)
  | initialize_segment => trivial
  | flush => trivial
  | reload => trivial

/-! ## A concrete instance

The Roaring format of a set below `2 ^ 16` with at most 4096 members is
one array container; other sets are laid out word by word, which is all
the law asks. -/

/-- The header of one array container of `card` members. -/
def arrayHeader (card : ℕ) : Bytes :=
  [1, 0, 0, 0, 0, 0, 0, 0] ++ Bytes.ofNatLE 4 0 ++ Bytes.ofNatLE 4 12346 ++ Bytes.ofNatLE 4 1 ++
    Bytes.ofNatLE 2 0 ++ Bytes.ofNatLE 2 (card - 1) ++ Bytes.ofNatLE 4 16

/-- One array container, or plain words. -/
def sampleRoaring : Roaring where
  serialize_into docs :=
    let ids := (docs.sort (· ≤ ·)).map UInt64.toNat
    if docs = ∅ then [0, 0, 0, 0, 0, 0, 0, 0]
    else if (∀ d ∈ docs, d < 65536) ∧ docs.card ≤ 4096 then
      arrayHeader docs.card ++ ids.flatMap (Bytes.ofNatLE 2)
    else 2 :: ids.flatMap (Bytes.ofNatLE 8)
  deserialize_from bytes :=
    match bytes with
    | 0 :: _ => .ok ∅
    | 1 :: _ => .ok ((Bytes.wordsLE 2 ((bytes.length - 28) / 2) (bytes.drop 28)).map
        UInt64.ofNat).toFinset
    | 2 :: rest => .ok ((Bytes.wordsLE 8 (rest.length / 8) rest).map UInt64.ofNat).toFinset
    | _ => .error "unknown cookie value"

theorem sampleRoaring_lawful : sampleRoaring.Lawful := by
  intro docs
  set ids := (docs.sort (· ≤ ·)).map UInt64.toNat with hids
  have hback : (ids.map UInt64.ofNat).toFinset = docs := by
    rw [hids, List.map_map]
    have hid : (UInt64.ofNat ∘ UInt64.toNat) = id := funext fun d => UInt64.ofNat_toNat
    rw [hid, List.map_id, Finset.sort_toFinset]
  have hwords : ∀ w, (∀ v ∈ ids, v < 256 ^ w) →
      Bytes.wordsLE w ids.length (ids.flatMap (Bytes.ofNatLE w)) = ids := by
    intro w hw
    have := Bytes.wordsLE_flatMap hw []
    rwa [List.append_nil] at this
  by_cases hempty : docs = ∅
  · simp only [sampleRoaring, hempty, if_true]
  by_cases hsmall : (∀ d ∈ docs, d < 65536) ∧ docs.card ≤ 4096
  · have hlt : ∀ v ∈ ids, v < 256 ^ 2 := by
      intro v hv
      obtain ⟨d, hd, rfl⟩ := List.mem_map.1 hv
      have := hsmall.1 d ((Finset.mem_sort _).1 hd)
      exact this
    have hheader : (arrayHeader docs.card).length = 28 := by simp [arrayHeader]
    have hlen : (arrayHeader docs.card ++ ids.flatMap (Bytes.ofNatLE 2)).length =
        28 + 2 * ids.length := by
      rw [List.length_append, hheader, Bytes.length_flatMap_ofNatLE]
    obtain ⟨t, ht⟩ : ∃ t, arrayHeader docs.card ++ ids.flatMap (Bytes.ofNatLE 2) = 1 :: t :=
      ⟨_, rfl⟩
    simp only [sampleRoaring, ← hids, if_neg hempty, if_pos hsmall]
    grind
  · have hlt : ∀ v ∈ ids, v < 256 ^ 8 := by
      intro v hv
      obtain ⟨d, -, rfl⟩ := List.mem_map.1 hv
      exact d.toNat_lt
    simp only [sampleRoaring, ← hids, if_neg hempty, if_neg hsmall,
      Bytes.length_flatMap_ofNatLE, Nat.mul_div_cancel_left _ (show 0 < 8 by omega),
      hwords 8 hlt, hback]

/-- An instance whose log holds no entry yet. -/
def sampleDeps : DeletionDeps where
  roaring := sampleRoaring
  crc32 _ := 0
  to_json entry := s!"\x7b\"timestamp\":{entry.timestamp},\"segment_id\":\"{entry.segment_id}\"," ++
    s!"\"doc_id\":{entry.doc_id},\"reason\":\"{entry.reason}\",\"sequence\":{entry.sequence}\x7d"
  from_json _ := none

/-- The segment `s`, documents 0 to 9, nothing deleted. -/
def sampleBitmap : DeletionBitmap := DeletionBitmap.new "s" 0 9 0

/-- A manager over the empty storage, its log on. -/
def sampleManager : DeletionManager where
  bitmaps := ∅
  deletion_log := some { log_path := "deletions.log", sequence := 0 }
  dirty_segments := ∅

/-- It, with the segment initialized. -/
def sampleInitialized : DeletionManager :=
  { sampleManager with bitmaps := AList.insert "s" sampleBitmap ∅, dirty_segments := {"s"} }

/-- Initializing `s`. -/
def sampleInit : DeletionOp := .initialize_segment ⟨"s", by decide⟩ 0 9 0

theorem sampleOpened : Opened sampleDeps ⟨sampleManager, ∅⟩ :=
  ⟨fun _ _ _ h => by simp at h, true, rfl⟩

theorem sampleInit_step (guard : DeletionState → DeletionOp → Prop)
    (hguard : guard ⟨sampleManager, ∅⟩ sampleInit) :
    (DeletionStep sampleDeps).guarded guard ⟨sampleManager, ∅⟩ sampleInit
      ⟨sampleInitialized, ∅⟩ := by
  refine ⟨hguard, ?_⟩
  exact DeletionStep.initialize_segment

/-- A run the theorem covers: initialize, delete, flush. -/
theorem bitmaps_survive_sample : ∃ ops st,
    Run ((DeletionStep sampleDeps).guarded AppendHolds) ⟨sampleManager, ∅⟩ ops st ∧
      ops.length = 3 ∧ DirtyTracked sampleDeps st ∧ FlushDurable sampleDeps st ∧
        ∀ op, AppendHolds st op → FailedDeleteSettled sampleDeps st op := by
  generalize hdel : sampleInitialized.delete_document sampleDeps ∅ "s" 3 "user" 0 none = out
  obtain ⟨result, m₁, s₁⟩ := out
  generalize hflush : m₁.flush sampleDeps s₁ m₁.dirty_segments.toList (fun _ => none) = out
  obtain ⟨result', m₂, s₂⟩ := out
  have hrun : Run ((DeletionStep sampleDeps).guarded AppendHolds) ⟨sampleManager, ∅⟩
      [sampleInit, .delete_document "s" 3 "user" 0 none,
        .flush m₁.dirty_segments.toList fun _ => none] ⟨m₂, s₂⟩ :=
    Run.cons (sampleInit_step _ trivial) (Run.cons ⟨trivial, DeletionStep.delete_document hdel⟩
      (Run.single ⟨trivial, DeletionStep.flush (Finset.nodup_toList _)
        (Finset.toList_toFinset _) hflush⟩))
  exact ⟨_, _, hrun, rfl, bitmaps_survive_flush_and_reload sampleRoaring_lawful sampleOpened hrun⟩

/-! ## The lost mark

Document 3 of the flushed segment is deleted, and opening the log for
its entry fails. The bit is set and the mark is not made: the retry
finds the bit set and marks nothing, the flush writes nothing, and the
reload brings the document back. -/

/-- Opening the log fails. -/
def sampleFault : WriteFault := WriteFault.create (LaurusError.Io "disk full")

/-- The failing deletion. -/
def sampleDelete : DeletionOp := .delete_document "s" 3 "user" 0 (some sampleFault)

/-- The segment with document 3 marked. -/
def sampleMarked : DeletionBitmap :=
  { sampleBitmap with deleted_docs := {3}, deleted_count := 1, version := 2 }

/-- The manager after the failing deletion. -/
def sampleLost : DeletionManager where
  bitmaps := AList.insert "s" sampleMarked (AList.insert "s" sampleBitmap ∅)
  deletion_log := some { log_path := "deletions.log", sequence := 1 }
  dirty_segments := ∅

theorem sampleDelete_eq (s : Storage) :
    { sampleInitialized with dirty_segments := ∅ }.delete_document sampleDeps s "s" 3 "user" 0
      (some sampleFault) = (.error (LaurusError.Io "disk full"), sampleLost, s) := by
  have hlog : ∀ entry, ∃ bytes, DeletionLog.record sampleDeps entry = .ok bytes := by
    intro entry
    cases h : DeletionLog.record sampleDeps entry with
    | ok bytes => exact ⟨bytes, rfl⟩
    | error e => exact absurd h (DeletionLog.record_ne_error entry e)
  rfl

/-- **A failed append loses the deletion**: after a run of two operations and
the failing one, the marked bitmap is not the saved one and its segment
is not dirty, a flush and a reload lose the mark, and so do a retry, a
flush and a reload. -/
theorem failed_append_loses_deletion : ∃ st,
    Opened sampleDeps ⟨sampleManager, ∅⟩ ∧
    Run (DeletionStep sampleDeps) ⟨sampleManager, ∅⟩
      [sampleInit, .flush ["s"] fun _ => none, sampleDelete] ⟨sampleLost, st.storage⟩ ∧
    DeletionStep sampleDeps st sampleDelete ⟨sampleLost, st.storage⟩ ∧
    ¬ DirtyTracked sampleDeps ⟨sampleLost, st.storage⟩ ∧
    ¬ FlushDurable sampleDeps ⟨sampleLost, st.storage⟩ ∧
    ¬ FailedDeleteSettled sampleDeps st sampleDelete := by
  -- the flush saves the unmarked bitmap
  obtain ⟨bytes, hbytes⟩ : ∃ bytes, bitmap_bytes sampleDeps sampleBitmap = .ok bytes := by
    have hemits : Comp.Emits (sampleBitmap.write_to_storage sampleRoaring) _ () :=
      DeletionBitmap.emits_write (by decide)
    obtain ⟨w, hw, hclose⟩ := StructWriter.close_of_emits sampleDeps.crc32 hemits
    refine ⟨_, Eq.trans ?_ hclose⟩
    simp only [bitmap_bytes, show sampleDeps.roaring = sampleRoaring from rfl, hw]
    rfl
  have hlookup : AList.lookup "s" (AList.insert "s" sampleBitmap ∅ : Bitmaps) =
      some sampleBitmap := AList.lookup_insert _
  obtain ⟨s, hflush⟩ : ∃ s, sampleInitialized.flush sampleDeps ∅ ["s"] (fun _ => none) =
      (.ok (), { sampleInitialized with dirty_segments := ∅ }, s) := by
    refine ⟨AList.insert (bitmap_file "s") bytes
      (AList.erase (tmp_file "s") (AList.insert (tmp_file "s") bytes ∅)), ?_⟩
    simp only [DeletionManager.flush, DeletionManager.flush_loop, save_bitmap, sampleInitialized,
      hlookup, hbytes, Storage.create, Storage.rename, AList.lookup_insert]
  have hinit := sampleInit_step AppendHolds trivial
  have hflushed : (DeletionStep sampleDeps).guarded AppendHolds ⟨sampleInitialized, ∅⟩
      (.flush ["s"] fun _ => none) ⟨{ sampleInitialized with dirty_segments := ∅ }, s⟩ :=
    ⟨trivial, DeletionStep.flush (by decide) (by decide) hflush⟩
  have htracked : Tracked sampleDeps { sampleInitialized with dirty_segments := ∅ } s ∅ :=
    ((Tracked.of_new sampleOpened.1 sampleOpened.2.choose_spec).step sampleRoaring_lawful
      hinit).step sampleRoaring_lawful hflushed
  -- whatever the retry appends to the log, a reload finds the unmarked bitmap
  have hreload : ∀ s', SameBitmaps s s' → ∀ m', new sampleDeps true s' = .ok m' →
      m'.bitmaps.lookup "s" = some sampleBitmap := by
    intro s' hsame m' hnew
    obtain ⟨m'', hnew', hbitmaps⟩ := (htracked.same hsame).reload true
    rw [hnew, Except.ok.injEq] at hnew'
    rw [hnew', hbitmaps]
    exact hlookup
  have hlost : AList.lookup "s" sampleLost.bitmaps = some sampleMarked := AList.lookup_insert _
  have hdelete := DeletionStep.delete_document (sampleDelete_eq s)
  refine ⟨⟨_, s⟩, sampleOpened, ?_, hdelete, fun h => ?_, fun h => ?_, fun h => ?_⟩
  · exact Run.cons hinit.2 (Run.cons hflushed.2 (Run.single hdelete))
  · have hsaved := (htracked.behind "s" sampleBitmap hlookup).resolve_right (Finset.notMem_empty _)
    refine absurd (h "s" sampleMarked hlost ?_) (Finset.notMem_empty _)
    rw [hsaved]
    decide
  · obtain ⟨m', hnew, hbitmaps⟩ := h [] (fun _ => none) _ _ List.nodup_nil rfl rfl true
    have heq := hbitmaps "s"
    rw [hreload s (SameBitmaps.refl s) m' hnew, hlost] at heq
    exact absurd heq (by decide)
  · rcases h _ _ _ (sampleDelete_eq s) with hkept | hretry
    · rw [DeletionManager.is_deleted, hlost] at hkept
      exact absurd hkept (by decide)
    · have hbit : sampleMarked.delete_document 3 0 = .ok (false, sampleMarked) := by
        decide +kernel
      generalize hlog : DeletionLog.log_deletion sampleDeps
        { log_path := "deletions.log", sequence := 1 } s "s" 3 "user" 0 none = out
      obtain ⟨r, log, s'⟩ := out
      obtain ⟨hsame, -⟩ := Tracked.log_deletion (by decide) hlog
      have hok : r = .ok () := by
        rw [DeletionLog.log_deletion] at hlog
        split at hlog
        · rename_i e he
          exact absurd he (DeletionLog.record_ne_error _ e)
        · cases hlog
          rfl
      have hagain : sampleLost.delete_document sampleDeps s "s" 3 "user" 0 none =
          (.ok false, { sampleLost with
            bitmaps := AList.insert "s" sampleMarked sampleLost.bitmaps
            deletion_log := some log }, s') := by
        rw [DeletionManager.delete_document, hlost]
        simp only [hbit, sampleLost, hlog, hok]
        rfl
      obtain ⟨m', hnew, hset⟩ := hretry _ _ _ _ _ _ hagain [] (fun _ => none) _ _
        List.nodup_nil rfl rfl true
      rw [DeletionManager.is_deleted, hreload s' hsame m' hnew] at hset
      exact absurd hset (by decide)

end Laurus
