import Laurus.Common.Run
import Laurus.Lexical.Model.IdFilter
import Mathlib.Data.List.Sort

/-!
# The filter over committed ids hides no document

`committed_id_filter_sound`: however checks by readers over whatever segments
follow each other, with dictionaries that cannot be read and with rebuilds, an
id that is answered to be absent is in no segment of the reader that asked;
and a check that meets a dictionary it cannot read changes nothing.
-/

namespace Laurus

section IdFilter

/-!
## What the filter over committed ids holds

A bit that is set stays set, so a key that was inserted may be contained from
then on. `Covers` says that of every segment counted as covered; covering more
segments and a rebuild keep it, and otherwise leave the filter as it is.
-/

open BlockedBloom FilterState

/-! ## The Bloom filter -/

namespace BlockedBloom

theorem or_and_distrib (a b m : UInt64) : (a ||| b) &&& m = (a &&& m) ||| (b &&& m) := by
  apply UInt64.eq_of_toBitVec_eq
  simp only [UInt64.toBitVec_and, UInt64.toBitVec_or]
  grind

theorem mask_ne_zero (position : UInt64) : (1 : UInt64) <<< (position % 64) ≠ 0 := by
  intro h
  have hnat := congrArg UInt64.toNat h
  have hlt : (position % 64).toNat < 64 := by
    exact Nat.mod_lt _ (by decide)
  rw [UInt64.toNat_shiftLeft, Nat.mod_eq_of_lt hlt, UInt64.toNat_one, Nat.one_shiftLeft,
    Nat.mod_eq_of_lt (Nat.pow_lt_pow_right (by decide) hlt)] at hnat
  grind

variable {count : ℕ} {block : Fin count}

/-- The bits of a mask that are set in a word, if any. -/
def Has (blocks : Blocks count) (block : Fin count) (bit : Fin 8 × UInt64) : Prop :=
  word_at blocks block bit.1 &&& bit.2 ≠ 0

theorem Has.set_bit {bits : Blocks count × ℕ} {block' : Fin count} {bit' : Fin 8 × UInt64}
    (h : Has bits.1 block' bit') (bit : Fin 8 × UInt64) :
    Has (BlockedBloom.set_bit block bits bit).1 block' bit' := by
  unfold BlockedBloom.set_bit
  dsimp only
  split
  · unfold Has word_at at h ⊢
    by_cases hblock : block = block'
    · subst hblock
      by_cases hword : bit.1 = bit'.1
      · simp only [Fin.getElem_fin, Vector.getElem_set_self, hword]
        rw [or_and_distrib, Ne, UInt64.or_eq_zero_iff, not_and_or]
        exact Or.inl h
      grind
    grind
  · exact h

theorem set_bit_has (bits : Blocks count × ℕ) {bit : Fin 8 × UInt64} (hmask : bit.2 ≠ 0) :
    Has (BlockedBloom.set_bit block bits bit).1 block bit := by
  unfold BlockedBloom.set_bit
  dsimp only
  split
  · unfold Has word_at
    simp only [Fin.getElem_fin, Vector.getElem_set_self]
    rw [or_and_distrib, Ne, UInt64.or_eq_zero_iff, not_and_or, UInt64.and_self]
    exact Or.inr hmask
  · exact ‹¬ _›

theorem Has.set_bits {bits : Blocks count × ℕ} {block' : Fin count} {bit' : Fin 8 × UInt64}
    (h : Has bits.1 block' bit') (new : List (Fin 8 × UInt64)) :
    Has (new.foldl (BlockedBloom.set_bit block) bits).1 block' bit' := by
  induction new generalizing bits with
  | nil => exact h
  | cons bit new ih => exact ih (h.set_bit bit)

theorem set_bits_has (bits : Blocks count × ℕ) {new : List (Fin 8 × UInt64)}
    (hmasks : ∀ bit ∈ new, bit.2 ≠ 0) {bit : Fin 8 × UInt64} (hmem : bit ∈ new) :
    Has (new.foldl (BlockedBloom.set_bit block) bits).1 block bit := by
  induction new generalizing bits with
  | nil => cases hmem
  | cons first new ih =>
      rcases List.mem_cons.1 hmem with rfl | hrest
      · exact (set_bit_has bits (hmasks _ List.mem_cons_self)).set_bits new
      grind

theorem may_contain_iff {bloom : BlockedBloom} {hash : UInt64} :
    bloom.may_contain hash = true ↔
      ∀ bit ∈ locate_bits hash, Has bloom.blocks (bloom.locate_block hash) bit := by
  unfold may_contain Has
  simp

/-- **What was inserted may be contained.** -/
theorem may_contain_insert (bloom : BlockedBloom) (hash : UInt64) :
    (bloom.insert hash).may_contain hash = true := by
  rw [may_contain_iff]
  intro bit hmem
  refine set_bits_has (bloom.blocks, bloom.ones) (fun bit hbit => ?_) hmem
  obtain ⟨i, -, rfl⟩ := List.mem_map.1 hbit
  exact mask_ne_zero _

/-- **And stays so.** -/
theorem may_contain_mono {bloom : BlockedBloom} {hash : UInt64} (h : bloom.may_contain hash = true)
    (hash' : UInt64) : (bloom.insert hash').may_contain hash = true := by
  rw [may_contain_iff] at h ⊢
  intro bit hmem
  have hset : Has (bloom.blocks, bloom.ones).1 (bloom.locate_block hash) bit := h bit hmem
  exact hset.set_bits (locate_bits hash')

end BlockedBloom

/-! ## The keys of a segment -/

theorem mem_id_keys {dictionary : BlockTermDictionary} {id : String}
    (h : ID_KEY_START ++ id ∈ dictionary.sorted_terms) :
    ID_KEY_START ++ id ∈ id_keys dictionary := by
  obtain ⟨i, hi, hkey⟩ := List.mem_iff_getElem.1 h
  have hstart : ¬ ID_KEY_START ++ id < ID_KEY_START := by
    rw [String.lt_iff, String.toList_append]
    simp [ID_KEY_START]
  have hend : ID_KEY_START ++ id < ID_KEY_END := by
    rw [String.lt_iff, String.toList_append]
    simp only [ID_KEY_START, ID_KEY_END, String.reduceToList, List.cons_append, List.nil_append,
      List.cons_lt_cons_self]
    exact List.Lex.rel (by decide)
  -- the key is at or past the first that is not below the prefix, and before the end
  have hle : dictionary.seek_index ID_KEY_START ≤ i := by
    by_contra hlt
    have hbelow := List.not_of_lt_findIdx (Nat.not_le.1 hlt)
    grind
  have hlt : i < dictionary.seek_index ID_KEY_END := by
    refine List.lt_findIdx_of_not hi fun j hj => ?_
    have hbelow : dictionary.sorted_terms[j] < ID_KEY_END := by
      rcases Nat.lt_or_eq_of_le hj with hlt | rfl
      · have hasc := List.pairwise_iff_getElem.1 dictionary.ascending j i (by omega) hi hlt
        grind
      · rw [hkey]
        exact hend
    simpa using hbelow
  unfold id_keys
  rw [List.mem_filterMap]
  refine ⟨i, ?_, ?_⟩
  · rw [List.mem_range'_1]
    omega
  · unfold BlockTermDictionary.entry_at
    rw [List.getElem?_eq_getElem hi, hkey]

variable {hasher : IdHasher} {content : SegmentKey → BlockTermDictionary}

/-- The filter may contain a key. -/
def Contains (hasher : IdHasher) (bloom : BlockedBloom) (key : String) : Prop :=
  bloom.may_contain (hasher.hash_one key) = true

variable {key : String} {new : List (SegmentKey × BlockTermDictionary)}

theorem Contains.insert_keys {bloom : BlockedBloom} (h : Contains hasher bloom key)
    (keys : List String) : Contains hasher (BlockedBloom.insert_keys hasher bloom keys) key := by
  induction keys generalizing bloom with
  | nil => exact h
  | cons first keys ih => exact ih (may_contain_mono h _)

theorem contains_insert_keys (bloom : BlockedBloom) {keys : List String}
    (hmem : key ∈ keys) : Contains hasher (BlockedBloom.insert_keys hasher bloom keys) key := by
  induction keys generalizing bloom with
  | nil => cases hmem
  | cons first keys ih =>
      rcases List.mem_cons.1 hmem with rfl | hrest
      · exact Contains.insert_keys (may_contain_insert bloom _) keys
      · exact ih _ hrest

/-! ## What a filter covers -/

/-- Every id of every segment that is covered is in the filter. -/
def Covers (hasher : IdHasher) (content : SegmentKey → BlockTermDictionary)
    (state : FilterState) : Prop :=
  ∀ key ∈ state.covered, ∀ id_key ∈ id_keys (content key), Contains hasher state.bloom id_key

theorem uncovered_spec {covered : Finset SegmentKey} {all : List SegmentInfo}
    {faults : ℕ → Option DictionaryFault} {index : ℕ} {segments : List SegmentInfo} (hall : all.drop index = segments)
    (h : uncovered covered (dictionaries content all faults) index segments = .ok (some new)) :
    (∀ entry ∈ new, entry.2 = content entry.1) ∧
      ∀ i info, segments[i]? = some info → SegmentKey.of info ∈ covered ∨
        (faults (index + i) = none ∧ ∃ entry ∈ new, entry.1 = SegmentKey.of info) := by
  induction segments generalizing index new with
  | nil =>
      cases h
      exact ⟨by simp, by simp⟩
  | cons first segments ih =>
      have hfirst : all[index]? = some first := by
        have hhead := congrArg List.head? hall
        rwa [List.head?_drop] at hhead
      have hrest : all.drop (index + 1) = segments := by
        rw [← List.drop_drop, hall, List.drop_one, List.tail_cons]
      rw [uncovered] at h
      split at h
      · rename_i hcovered
        obtain ⟨hread, hsegments⟩ := ih hrest h
        refine ⟨hread, fun i info hinfo => ?_⟩
        cases i with
        | zero =>
            grind
        | succ i =>
            grind
      · cases hfault : faults index with
        | some fault =>
            unfold dictionaries at h
            grind
        | none =>
            have hdictionary : dictionaries content all faults index =
                .ok (some (content (SegmentKey.of first))) := by
              unfold dictionaries
              rw [hfault, hfirst]
            rw [hdictionary] at h
            cases hout : uncovered covered (dictionaries content all faults) (index + 1) segments with
            | error e =>
                rw [hout] at h
                cases h
            | ok found =>
                rw [hout] at h
                cases found with
                | none => cases h
                | some rest =>
                    cases h
                    refine ⟨fun entry hmem => ?_, fun i info hinfo => ?_⟩
                    · grind
                    · cases i with
                      | zero =>
                          grind [List.mem_cons_self]
                      | succ i =>
                          grind

/-! ## Covering segments -/

theorem Contains.insert_dictionaries {bloom : BlockedBloom}
    (h : Contains hasher bloom key) (new : List (SegmentKey × BlockTermDictionary)) :
    Contains hasher (new.foldl (insert_dictionary hasher) bloom) key := by
  induction new generalizing bloom with
  | nil => exact h
  | cons entry new ih => exact ih (h.insert_keys _)

theorem contains_insert_dictionaries (bloom : BlockedBloom) {entry : SegmentKey × BlockTermDictionary} (hmem : entry ∈ new) (hkey : key ∈ id_keys entry.2) :
    Contains hasher (new.foldl (insert_dictionary hasher) bloom) key := by
  induction new generalizing bloom with
  | nil => cases hmem
  | cons first new ih =>
      rcases List.mem_cons.1 hmem with rfl | hrest
      · exact Contains.insert_dictionaries (contains_insert_keys bloom hkey) new
      · exact ih _ hrest

theorem cover_segments_spec {state : FilterState}
    (hcovers : Covers hasher content state) (hread : ∀ entry ∈ new, entry.2 = content entry.1) :
    let state' := new.foldl (cover_segment hasher) state
    Covers hasher content state' ∧ state'.generation = state.generation ∧
      state.covered ⊆ state'.covered ∧ ∀ entry ∈ new, entry.1 ∈ state'.covered := by
  induction new generalizing state with
  | nil => grind
  | cons first new ih =>
      have hfirst : Covers hasher content (cover_segment hasher state first) := by
        intro key hkey id_key hid
        rcases Finset.mem_insert.1 hkey with rfl | hold
        · rw [← hread _ List.mem_cons_self] at hid
          exact contains_insert_keys _ hid
        · exact (hcovers key hold id_key hid).insert_keys _
      obtain ⟨hall, hgeneration, hsub, hnew⟩ :=
        ih hfirst fun entry hmem => hread entry (List.mem_cons_of_mem _ hmem)
      refine ⟨hall, hgeneration, (Finset.subset_insert _ _).trans hsub, fun entry hmem => ?_⟩
      rcases List.mem_cons.1 hmem with rfl | hin
      · exact hsub (Finset.mem_insert_self _ _)
      · exact hnew entry hin

/-- The filter covers every one of the segments. -/
def CoversAll (state : FilterState) (segments : List SegmentInfo) : Prop :=
  ∀ info ∈ segments, SegmentKey.of info ∈ state.covered

/-- The dictionaries of the segments that are not covered are read. -/
def Readable (covered : Finset SegmentKey) (segments : List SegmentInfo)
    (faults : ℕ → Option DictionaryFault) : Prop :=
  ∀ i info, segments[i]? = some info → SegmentKey.of info ∉ covered → faults i = none

variable {segments : List SegmentInfo} {faults faults' : ℕ → Option DictionaryFault}
  {state state' : FilterState} {out : Except LaurusError Bool}

/-- **A rebuild covers the segments it is given**, or leaves the filter. -/
theorem rebuild_spec
    (h : state.rebuild hasher segments (dictionaries content segments faults) = (out, state')) :
    out ≠ .ok true ∧ state' = state ∨
      out = .ok true ∧ Covers hasher content state' ∧ CoversAll state' segments ∧
        state'.generation = state.generation + 1 ∧ Readable ∅ segments faults := by
  unfold rebuild at h
  cases hread : uncovered ∅ (dictionaries content segments faults) 0 segments with
  | error e =>
      grind
  | ok found =>
      rw [hread] at h
      cases found with
      | none =>
          grind
      | some new =>
          cases h
          obtain ⟨hcontent, hall⟩ := uncovered_spec List.drop_zero hread
          refine Or.inr ⟨rfl, fun key hkey id_key hid => ?_, fun info hinfo => ?_, rfl, ?_⟩
          · -- the segment of a key is among those whose dictionary was read
            grind [List.mem_toFinset, List.mem_iff_getElem?, contains_insert_dictionaries]
          · exact List.mem_toFinset.2 (List.mem_map_of_mem hinfo)
          · intro i info hi habsent
            grind

/-- **Covering segments covers them all**, in a filter that holds what it held
or in a new generation of it, or leaves the filter. -/
theorem cover_spec (hcovers : Covers hasher content state)
    (h : state.cover hasher segments (dictionaries content segments faults)
      (dictionaries content segments faults') = (out, state')) :
    out ≠ .ok true ∧ state' = state ∨
      out = .ok true ∧ Covers hasher content state' ∧ CoversAll state' segments ∧
        Readable state.covered segments faults ∧
        (state'.generation = state.generation ∧ state.covered ⊆ state'.covered ∨
          state'.generation = state.generation + 1 ∧ Readable ∅ segments faults') := by
  unfold cover at h
  cases hread : uncovered state.covered (dictionaries content segments faults) 0 segments with
  | error e =>
      grind
  | ok found =>
      rw [hread] at h
      cases found with
      | none =>
          grind
      | some new =>
          obtain ⟨hcontent, hall⟩ := uncovered_spec List.drop_zero hread
          have hreadable : Readable state.covered segments faults := by
            intro i info hi habsent
            grind
          dsimp only at h
          split at h
          · cases h
            obtain ⟨hkeep, hgeneration, hsub, hnew⟩ := cover_segments_spec hcovers hcontent
            refine Or.inr ⟨rfl, hkeep, fun info hinfo => ?_, hreadable, Or.inl ⟨hgeneration, hsub⟩⟩
            grind [List.mem_iff_getElem?]
          grind [rebuild_spec]

/-- The answer of a filter that covers the segments: an id that is absent is in
none of them. -/
theorem answer_sound {id : String} (hcovers : Covers hasher content state)
    (hall : CoversAll state segments)
    (habsent : state.answer hasher (ID_KEY_START ++ id) = .Absent) {info : SegmentInfo}
    (hinfo : info ∈ segments) :
    ID_KEY_START ++ id ∉ (content (SegmentKey.of info)).sorted_terms := by
  intro hmem
  have hcontains := hcovers _ (hall info hinfo) _ (mem_id_keys hmem)
  unfold Contains at hcontains
  unfold answer at habsent
  grind

end IdFilter

section IdFilter

open FilterState

variable {hasher : IdHasher} {content : SegmentKey → BlockTermDictionary}

/-! ## The readers of an index -/

/-- The filter of an index, and the readers that share it. -/
structure IdSystem where
  filter : FilterState
  readers : List IdReader

/-- The readers of an index that is opened: none. -/
def IdSystem.new (hasher : IdHasher) : IdSystem :=
  { filter := .new hasher, readers := [] }

/-- A reader opened on whichever segments, or a check by one of the readers,
with the dictionaries it cannot read, when it first asks and when a rebuild
does. -/
inductive IdCall
  | opened (segments : List SegmentInfo)
  | checked (reader : ℕ) (faults again : ℕ → Option DictionaryFault) (id : String)

/-- A step of the readers, labelled by the call. -/
inductive IdStep (hasher : IdHasher) (content : SegmentKey → BlockTermDictionary) :
    Step IdSystem IdCall
  | opened (system : IdSystem) (segments : List SegmentInfo) :
      IdStep hasher content system (.opened segments)
        { system with readers := system.readers ++ [{ segments, covered_generation := 0 }] }
  | checked {system : IdSystem} {i : ℕ} {reader : IdReader}
      (faults again : ℕ → Option DictionaryFault) (id : String)
      (hreader : system.readers[i]? = some reader) :
      IdStep hasher content system (.checked i faults again id)
        { filter := (reader.check hasher content system.filter faults again id).2.1
          readers := system.readers.set i
            (reader.check hasher content system.filter faults again id).2.2 }

/-! ## What they keep -/

/-- A reader that has covered the filter's generation has its segments covered. -/
structure ReaderCovered (filter : FilterState) (reader : IdReader) : Prop where
  generation_le : reader.covered_generation ≤ filter.generation
  covers : reader.covered_generation = filter.generation → CoversAll filter reader.segments

/-- What holds of the filter and its readers. -/
structure IdInvariant (hasher : IdHasher) (content : SegmentKey → BlockTermDictionary)
    (system : IdSystem) : Prop where
  covers : Covers hasher content system.filter
  one_le : 1 ≤ system.filter.generation
  readers : ∀ reader ∈ system.readers, ReaderCovered system.filter reader

theorem idInvariant_new : IdInvariant hasher content (.new hasher) where
  covers := fun key hkey => absurd hkey (Finset.notMem_empty key)
  one_le := Nat.le_refl 1
  readers := fun _ hmem => absurd hmem List.not_mem_nil

/-- What a check did: an answer by a filter that covers the reader's segments,
or nothing at all. -/
inductive Checked (hasher : IdHasher) (content : SegmentKey → BlockTermDictionary)
    (filter : FilterState) (reader : IdReader) (faults again : ℕ → Option DictionaryFault)
    (id : String) : Except LaurusError IdCheck × FilterState × IdReader → Prop
  | /-- The reader has covered its segments. -/
    known (hgeneration : reader.covered_generation = filter.generation) :
      Checked hasher content filter reader faults again id
        (.ok (filter.answer hasher (ID_KEY_START ++ id)), filter, reader)
  | /-- They are covered now. -/
    covered {filter' : FilterState} (hcovers : Covers hasher content filter')
      (hall : CoversAll filter' reader.segments)
      (hread : Readable filter.covered reader.segments faults)
      (hkept : filter'.generation = filter.generation ∧ filter.covered ⊆ filter'.covered ∨
        filter'.generation = filter.generation + 1 ∧ Readable ∅ reader.segments again) :
      Checked hasher content filter reader faults again id
        (.ok (filter'.answer hasher (ID_KEY_START ++ id)), filter',
          { reader with covered_generation := filter'.generation })
  | /-- A dictionary is missing. -/
    unavailable : Checked hasher content filter reader faults again id
      (.ok .Unavailable, filter, reader)
  | /-- A dictionary failed to load. -/
    failed (e : LaurusError) : Checked hasher content filter reader faults again id
      (.error e, filter, reader)

theorem check_spec {filter : FilterState} (hcovers : Covers hasher content filter)
    (reader : IdReader) (faults again : ℕ → Option DictionaryFault) (id : String) :
    Checked hasher content filter reader faults again id
      (reader.check hasher content filter faults again id) := by
  unfold IdReader.check FilterState.check
  dsimp only
  split
  · cases hcover : filter.cover hasher reader.segments
        (dictionaries content reader.segments faults) (dictionaries content reader.segments again) with
    | mk out filter' =>
        rcases cover_spec hcovers hcover with ⟨hout, rfl⟩ | ⟨rfl, hkeep, hall, hread, hkept⟩
        · match out with
          | .error e => exact Checked.failed e
          | .ok false => exact Checked.unavailable
          | .ok true => exact absurd rfl hout
        · exact Checked.covered hkeep hall hread hkept
  · rename_i hgeneration
    exact Checked.known (not_not.1 hgeneration)

/-- A filter that covers more, or is of a later generation, keeps what holds of
its readers. -/
theorem ReaderCovered.of_kept {filter filter' : FilterState} {reader : IdReader}
    (h : ReaderCovered filter reader)
    (hkept : filter'.generation = filter.generation ∧ filter.covered ⊆ filter'.covered ∨
      filter'.generation = filter.generation + 1) : ReaderCovered filter' reader := by
  obtain ⟨hle, hcovers⟩ := h
  rcases hkept with ⟨hgeneration, hsub⟩ | hgeneration
  · exact ⟨by omega, fun heq info hinfo => hsub (hcovers (by omega) info hinfo)⟩
  · exact ⟨by omega, fun heq => by omega⟩

/-- **A step keeps the invariant.** -/
theorem idInvariant_step {system system' : IdSystem} {call : IdCall}
    (hinv : IdInvariant hasher content system) (h : IdStep hasher content system call system') :
    IdInvariant hasher content system' := by
  cases h with
  | opened segments =>
      refine ⟨hinv.covers, hinv.one_le, fun reader hmem => ?_⟩
      rcases List.mem_append.1 hmem with hold | hnew
      · exact hinv.readers reader hold
      · have hone := hinv.one_le
        rw [List.mem_singleton.1 hnew]
        -- generation 0 is before any the filter has
        exact ⟨Nat.zero_le _, fun heq => by dsimp only at heq; omega⟩
  | @checked _ i reader faults again id hreader =>
      have hset : system.readers.set i reader = system.readers := by
        grind [List.set_getElem_self]
      generalize hout : reader.check hasher content system.filter faults again id = out
      have hchecked := check_spec hinv.covers reader faults again id
      rw [hout] at hchecked
      cases hchecked with
      | known hgeneration =>
          dsimp only
          rw [hset]
          exact hinv
      | unavailable =>
          dsimp only
          rw [hset]
          exact hinv
      | failed e =>
          dsimp only
          rw [hset]
          exact hinv
      | @covered filter' hcovers hall hread hkept =>
          have hone := hinv.one_le
          have hlater := hkept.imp_right And.left
          have hnext : 1 ≤ filter'.generation := by omega
          refine ⟨hcovers, hnext, fun other hmem => ?_⟩
          rcases List.mem_or_eq_of_mem_set hmem with hold | rfl
          · exact (hinv.readers other hold).of_kept hlater
          · exact ⟨Nat.le_refl _, fun _ => hall⟩

theorem idInvariant_run {calls : List IdCall} {system : IdSystem}
    (h : Run (IdStep hasher content) (.new hasher) calls system) :
    IdInvariant hasher content system :=
  h.invariant (IdInvariant hasher content) idInvariant_step idInvariant_new

/-! ## No document is hidden -/

/-- **An id that the filter says is absent is in no segment of the reader**,
after any run of the readers; and a check that meets a dictionary it cannot
read gives no answer, and changes nothing. -/
theorem committed_id_filter_sound (hasher : IdHasher) (content : SegmentKey → BlockTermDictionary)
    {calls : List IdCall} {system : IdSystem}
    (hrun : Run (IdStep hasher content) (.new hasher) calls system) {reader : IdReader}
    (hreader : reader ∈ system.readers) (faults again : ℕ → Option DictionaryFault)
    (id : String) :
    let checked := reader.check hasher content system.filter faults again id
    (checked.1 = .ok .Absent →
      ∀ info ∈ reader.segments,
        ID_KEY_START ++ id ∉ (content (SegmentKey.of info)).sorted_terms) ∧
    (checked.1 = .ok .Absent ∨ checked.1 = .ok .Maybe →
      reader.covered_generation = system.filter.generation ∨
        Readable system.filter.covered reader.segments faults ∧
          (checked.2.1.generation ≠ system.filter.generation → Readable ∅ reader.segments again)) ∧
    (checked.1 ≠ .ok .Absent → checked.1 ≠ .ok .Maybe →
      checked.2.1 = system.filter ∧ checked.2.2 = reader) := by
  have hinv := idInvariant_run hrun
  have hsound := hinv.readers reader hreader
  intro checked
  have hchecked : Checked hasher content system.filter reader faults again id checked :=
    check_spec hinv.covers reader faults again id
  clear_value checked
  cases hchecked with
  | known hgeneration =>
      refine ⟨fun habsent info hinfo => ?_, fun _ => Or.inl hgeneration, fun _ _ => ⟨rfl, rfl⟩⟩
      exact answer_sound hinv.covers (hsound.covers hgeneration) (Except.ok.inj habsent) hinfo
  | covered hcovers hall hread hkept =>
      refine ⟨fun habsent info hinfo => ?_, fun _ => Or.inr ⟨hread, fun hne => ?_⟩,
        fun habsent hmaybe => ?_⟩
      · exact answer_sound hcovers hall (Except.ok.inj habsent) hinfo
      · rcases hkept with ⟨heq, -⟩ | ⟨-, hagain⟩
        · exact absurd heq hne
        · exact hagain
      · -- a filter that covers the segments answers one or the other
        exfalso
        unfold answer at habsent hmaybe
        dsimp only at habsent hmaybe
        split at habsent
        · exact hmaybe (by rw [if_pos ‹_›])
        · exact habsent rfl
  | unavailable => exact ⟨by simp, by simp, fun _ _ => ⟨rfl, rfl⟩⟩
  | failed e => exact ⟨by simp, by simp, fun _ _ => ⟨rfl, rfl⟩⟩

/-- A hasher by the length of a key. -/
def length_hasher : IdHasher :=
  { hash_one := fun key => UInt64.ofNat key.length * 0x9e3779b97f4a7c15, max_keys := id }

/-- A dictionary of one id and one other term. -/
def one_id : BlockTermDictionary := { sorted_terms := ["_id:a", "body:x"], ascending := by decide }

/-- A segment of one document. -/
def one_segment : SegmentInfo :=
  { segment_id := "segment_000000", doc_count := 1, min_doc_id := 0, max_doc_id := 0,
    generation := 1, has_deletions := false, deleted_count := none, shard_id := 0 }

/-- A reader of one segment asks for an id it does not hold. -/
theorem committed_id_filter_sound_sample :
    ID_KEY_START ++ "bb" ∉ one_id.sorted_terms :=
  (committed_id_filter_sound length_hasher (fun _ => one_id)
    (Run.single (IdStep.opened (.new length_hasher) [one_segment]))
    (List.mem_singleton.2 rfl) (fun _ => none) (fun _ => none) "bb").1 (by decide +kernel)
    one_segment (List.mem_singleton.2 rfl)

end IdFilter

end Laurus
