import Laurus.Common.Bytes
import Laurus.Deletion.Model.Manager
import Laurus.Storage.Helpers.Structured

/-!
# The numbers of the deletion log

The log is one frame after another (`LogFrame`), each with a footer or with
the four bytes of its CRC alone. The loader steps over either exactly
(`load_sequence_loop_log`), so a log that is opened goes on after its
greatest number, and while appends are whole every entry has a greater
number than those before it (`deletion_log_numbers`). What is left of an
append that failed halfway hides the entries behind it.
-/

namespace Laurus

open Laurus.Comp

/-! ## Frames -/

/-- An entry in the file, with the CRC behind it. -/
structure LogFrame where
  entry : DeletionLogEntry
  crc : UInt32
  footed : Bool
  deriving DecidableEq, Repr

namespace LogFrame

variable (deps : DeletionDeps)

/-- The magic of a footer, where there is one. -/
def magic (f : LogFrame) : Bytes := if f.footed then Bytes.ofNatLE 4 FOOTER_MAGIC.toNat else []

def bytes (f : LogFrame) : Bytes :=
  StructWriter.stringBytes (deps.to_json f.entry) ++ [0x0A] ++ Bytes.ofNatLE 4 f.crc.toNat ++ f.magic

end LogFrame

/-- The bytes of some frames. -/
def log_bytes (deps : DeletionDeps) (frames : List LogFrame) : Bytes :=
  frames.flatMap (LogFrame.bytes deps)

/-- What `serde_json` makes of some entries: an object that reads back. -/
structure JsonOf (deps : DeletionDeps) (E : DeletionLogEntry → Prop) : Prop where
  reads : ∀ e, E e → deps.from_json (deps.to_json e) = some e
  object : ∀ e, E e → ∃ rest, (deps.to_json e).toByteArray.data.toList = 0x7B :: rest
  fits : ∀ e, E e → (deps.to_json e).toByteArray.data.toList.length < 2 ^ 63

variable {deps : DeletionDeps} {E : DeletionLogEntry → Prop}

/-- **An entry does not begin with the footer's magic**: a length of `L` is
followed by a brace. -/
theorem JsonOf.not_magic (h : JsonOf deps E) {e : DeletionLogEntry} (he : E e) (t : Bytes) :
    UInt32.ofNat (Bytes.toNatLE ((StructWriter.stringBytes (deps.to_json e) ++ t).take 4)) ≠
      FOOTER_MAGIC := by
  obtain ⟨rest, hrest⟩ := h.object e he
  have hlen := h.fits e he
  rw [StructWriter.stringBytes, encode_u64_eq, StructReader.toNat_ofNat_length (by omega)]
  set n := (deps.to_json e).toByteArray.data.toList.length with hn
  have hword : ∀ (b c : UInt8) (tail : Bytes), (b.toNat = 0x4C → c.toNat ≠ 0x43) →
      UInt32.ofNat (Bytes.toNatLE ((b :: c :: tail).take 4)) ≠ FOOTER_MAGIC := by
    intro b c tail hbc hmagic
    have hlt := Bytes.toNatLE_lt ((b :: c :: tail).take 4)
    have hle : 256 ^ ((b :: c :: tail).take 4).length ≤ 256 ^ 4 :=
      Nat.pow_le_pow_right (by omega) (by rw [List.length_take]; omega)
    have hnat := congrArg UInt32.toNat hmagic
    rw [UInt32.toNat_ofNat', Nat.mod_eq_of_lt (by omega)] at hnat
    simp only [List.take_succ_cons, Bytes.toNatLE] at hnat
    have hb := b.toNat_lt
    have hc := c.toNat_lt
    have hval : FOOTER_MAGIC.toNat = 0x4352434C := rfl
    omega
  rw [Leb128.encode]
  by_cases hsmall : n < 128
  · grind
  · rw [if_neg hsmall]
    have hfirst : (UInt8.ofNat (n % 128 + 128)).toNat ≠ 0x4C := by
      rw [UInt8.toNat_ofNat']
      omega
    rcases htail : Leb128.encode (n / 128) with _ | ⟨c, tail⟩
    · grind
    grind

/-! ## The loader -/

namespace DeletionLog

open StructReader

/-- The greatest number of some frames, and one to start from. -/
def max_number (max_sequence : UInt64) (frames : List LogFrame) : UInt64 :=
  frames.foldl (fun max_sequence f => max max_sequence f.entry.sequence) max_sequence

theorem reads_crc (crc : UInt32) :
    Reads (do let _ ← read_u8; let _ ← read_u32 : Read Unit)
      ([0x0A] ++ Bytes.ofNatLE 4 crc.toNat) () :=
  (reads_u8 0x0A).bind ((reads_u32 crc).bind_nil (Reads.pure ()))

variable {frames : List LogFrame}

/-- Where the magic is peeked for, it is taken: what is left is the next entry. -/
theorem rest_after_magic (hjson : JsonOf deps E) {f : LogFrame}
    (hE : ∀ f ∈ frames, E f.entry) {r : StructReader}
    (hrest : r.rest = f.magic ++ log_bytes deps frames) :
    (if 4 ≤ r.remaining ∧ UInt32.ofNat (Bytes.toNatLE (r.rest.take 4)) = FOOTER_MAGIC
      then r.advance (r.rest.take 4) else r).rest = log_bytes deps frames := by
  rw [LogFrame.magic] at hrest
  by_cases hfooted : f.footed = true
  · rw [if_pos hfooted] at hrest
    have htake : r.rest.take 4 = Bytes.ofNatLE 4 FOOTER_MAGIC.toNat := by
      rw [hrest, List.take_left' (Bytes.length_ofNatLE 4 _)]
    have hlen : 4 ≤ r.remaining := by
      rw [← length_rest, hrest, List.length_append, Bytes.length_ofNatLE]
      omega
    rw [htake, if_pos ⟨hlen, rfl⟩]
    exact rest_advance_of hrest
  · rw [if_neg hfooted, List.nil_append] at hrest
    rw [if_neg, hrest]
    rintro ⟨hlen, hmagic⟩
    rcases frames with _ | ⟨next, frames⟩
    · rw [← length_rest, hrest] at hlen
      exact absurd hlen (show ¬ 4 ≤ ([] : Bytes).length by decide)
    grind [log_bytes, LogFrame.bytes, JsonOf.not_magic]

/-- **The loader steps over every frame**, of either trailer. -/
theorem load_sequence_loop_log (hjson : JsonOf deps E)
    (hE : ∀ f ∈ frames, E f.entry) : ∀ {fuel : ℕ} {max_sequence : UInt64} {r : StructReader},
    frames.length ≤ fuel → r.rest = log_bytes deps frames →
    load_sequence_loop deps fuel max_sequence r = max_number max_sequence frames := by
  induction frames with
  | nil =>
      intro fuel max_sequence r _ hrest
      rcases fuel with _ | fuel
      · rfl
      · have hremaining : r.remaining = 0 := by
          rw [← length_rest, hrest]
          rfl
        rw [load_sequence_loop, if_pos hremaining]
        rfl
  | cons f frames ih =>
      intro fuel max_sequence r hfuel hrest
      rcases fuel with _ | fuel
      · exact absurd hfuel (Nat.not_succ_le_zero _)
      rw [List.forall_mem_cons] at hE
      have hfits := hjson.fits _ hE.1
      have hframe : r.rest = StructWriter.stringBytes (deps.to_json f.entry) ++
          ([0x0A] ++ Bytes.ofNatLE 4 f.crc.toNat ++ (f.magic ++ log_bytes deps frames)) := by
        rw [hrest, log_bytes, List.flatMap_cons, LogFrame.bytes, log_bytes]
        simp only [List.append_assoc]
      have hmore : ¬ r.remaining = 0 := by
        grind [length_rest]
      have hstring := @reads_string (deps.to_json f.entry) (by omega) r _ hframe
      have hcrc := reads_crc f.crc _ _ (rest_advance_of hframe)
      have hnext := rest_advance_of (rest_advance_of hframe)
      rw [load_sequence_loop, if_neg hmore, hstring]
      dsimp only
      rw [hjson.reads _ hE.1]
      dsimp only
      rw [input_advance, hcrc]
      dsimp only
      rw [input_advance, ih hE.2 (Nat.le_of_succ_le_succ hfuel) (rest_after_magic hjson hE.2 hnext)]
      rfl

theorem length_le_log_bytes (frames : List LogFrame) :
    frames.length ≤ (log_bytes deps frames).length := by
  induction frames with
  | nil => exact Nat.le_refl _
  | cons f frames ih =>
      rw [log_bytes, List.flatMap_cons, List.length_append, List.length_cons, LogFrame.bytes]
      rw [log_bytes] at ih
      grind

theorem le_max_number : ∀ {max_sequence : UInt64},
    max_sequence ≤ max_number max_sequence frames ∧
      ∀ f ∈ frames, f.entry.sequence ≤ max_number max_sequence frames := by
  induction frames with
  | nil => exact fun {_} => ⟨UInt64.le_refl _, fun _ hf => absurd hf List.not_mem_nil⟩
  | cons f frames ih =>
      intro max_sequence
      obtain ⟨hacc, hrest⟩ := @ih (max max_sequence f.entry.sequence)
      rw [UInt64.le_iff_toNat_le, toNat_max_u64] at hacc
      refine ⟨UInt64.le_iff_toNat_le.2 ((Nat.le_max_left _ _).trans hacc), fun g hg => ?_⟩
      rcases List.mem_cons.1 hg with rfl | hg
      · exact UInt64.le_iff_toNat_le.2 ((Nat.le_max_right _ _).trans hacc)
      · exact hrest g hg

theorem max_number_eq : ∀ {max_sequence : UInt64},
    max_number max_sequence frames = max_sequence ∨
      ∃ f ∈ frames, max_number max_sequence frames = f.entry.sequence := by
  induction frames with
  | nil => exact fun {_} => Or.inl rfl
  | cons f frames ih =>
      intro max_sequence
      rcases @ih (max max_sequence f.entry.sequence) with h | ⟨g, hg, h⟩
      · rcases Nat.le_total f.entry.sequence.toNat max_sequence.toNat with hle | hle
        · refine Or.inl (h.trans (UInt64.toNat_inj.1 ?_))
          rw [toNat_max_u64, Nat.max_eq_left hle]
        · refine Or.inr ⟨f, List.mem_cons_self, h.trans (UInt64.toNat_inj.1 ?_)⟩
          rw [toNat_max_u64, Nat.max_eq_right hle]
      · exact Or.inr ⟨g, List.mem_cons_of_mem _ hg, h⟩

theorem new_log_path (s : Storage) (log_path : String) : (new deps s log_path).log_path = log_path := by
  rw [new]
  split <;> rfl

theorem new_sequence (hjson : JsonOf deps E) (hE : ∀ f ∈ frames, E f.entry)
    {s : Storage} {log_path : String} {bytes : Bytes} (hfile : AList.lookup log_path s = some bytes)
    (hbytes : bytes = log_bytes deps frames) :
    (new deps s log_path).sequence = max_number 0 frames + 1 := by
  have hload : load_sequence_loop deps (log_bytes deps frames).length 0
      (StructReader.new (log_bytes deps frames)) = max_number 0 frames :=
    load_sequence_loop_log hjson hE (length_le_log_bytes frames) rfl
  rw [new, hfile]
  dsimp only
  rw [hbytes, hload]

theorem record_eq (entry : DeletionLogEntry) :
    ∃ f : LogFrame, f.entry = entry ∧ record deps entry = .ok (f.bytes deps) := by
  have hemits : Emits (do
      StructWriter.write_string (deps.to_json entry)
      StructWriter.write_u8 0x0A : Write Unit)
      (StructWriter.stringBytes (deps.to_json entry) ++ [0x0A]) () :=
    (StructWriter.emits_string _).bind (StructWriter.emits_u8 _)
  obtain ⟨w, hw, hclose⟩ := StructWriter.close_of_emits deps.crc32 hemits
  set payload := StructWriter.stringBytes (deps.to_json entry) ++ [0x0A] with hpayload
  refine ⟨{ entry, crc := deps.crc32 payload, footed := true }, rfl, ?_⟩
  rw [record, hw]
  refine hclose.trans ?_
  rw [LogFrame.bytes, LogFrame.magic, if_pos rfl, StructWriter.footer, List.append_assoc,
    List.append_assoc, List.append_assoc]

end DeletionLog

/-! ## Runs -/

/-- A log open over its storage. -/
structure OpenLog where
  log : DeletionLog
  storage : Storage

/-- A call, or the next process's. -/
inductive LogOp
  | log_deletion (segment_id : String) (doc_id : UInt64) (reason : String) (now : UInt64)
      (fault : Option WriteFault)
  | reopen

/-- What a write with a fault leaves of its bytes. -/
def WriteFault.leaves (bytes : Bytes) : Option WriteFault → Bytes
  | none => bytes
  | some (create _) => []
  | some (write _ written) => bytes.take written

namespace OpenLog

variable (deps) (E)

/-- The log of a path, opened. -/
def opened (s : Storage) (log_path : String) : OpenLog := ⟨DeletionLog.new deps s log_path, s⟩

/-- The entry the next call writes. -/
def entry (st : OpenLog) (segment_id : String) (doc_id : UInt64) (reason : String) (now : UInt64) :
    DeletionLogEntry :=
  { timestamp := now, segment_id, doc_id, reason, sequence := st.log.sequence }

def run (st : OpenLog) : LogOp → OpenLog
  | .log_deletion segment_id doc_id reason now fault =>
    let (_, log, s) := st.log.log_deletion deps st.storage segment_id doc_id reason now fault
    ⟨log, s⟩
  | .reopen => opened deps st.storage st.log.log_path

/-- The log's file. -/
def file (st : OpenLog) : Bytes := (AList.lookup st.log.log_path st.storage).getD []

/-- The entry a call adds to the file, if all of its record arrives. -/
def logged (st : OpenLog) : LogOp → List DeletionLogEntry
  | .log_deletion segment_id doc_id reason now fault =>
    let entry := st.entry segment_id doc_id reason now
    match DeletionLog.record deps entry with
    | .error _ => []
    | .ok bytes => if (WriteFault.leaves bytes fault).length = bytes.length then [entry] else []
  | .reopen => []

/-- The entries of a run, in order. -/
def entries : List LogOp → OpenLog → List DeletionLogEntry
  | [], _ => []
  | op :: ops, st => st.logged deps op ++ entries ops (st.run deps op)

/-- **An append leaves nothing or its whole record**, and there is a number
after it. -/
def AppendsWhole (st : OpenLog) : LogOp → Prop
  | .log_deletion segment_id doc_id reason now fault =>
    let entry := st.entry segment_id doc_id reason now
    E entry ∧ st.log.sequence ≠ MAX_SEQ ∧
      ∀ bytes, DeletionLog.record deps entry = .ok bytes →
        WriteFault.leaves bytes fault = [] ∨ WriteFault.leaves bytes fault = bytes
  | .reopen => True

variable {st st' : OpenLog} {frames : List LogFrame}

/-- What holds between calls: the file is frames, and the next number is
greater than theirs. -/
structure Holds (st : OpenLog) (frames : List LogFrame) : Prop where
  file : st.file = log_bytes deps frames
  known : ∀ f ∈ frames, E f.entry
  below : ∀ f ∈ frames, f.entry.sequence < st.log.sequence

end OpenLog

namespace OpenLog

variable {st : OpenLog} {frames : List LogFrame}

/-- **A log opens above its entries**, unless one carries the last number. -/
theorem opened_below (hjson : JsonOf deps E) {s : Storage} {log_path : String}
    (hfile : (AList.lookup log_path s).getD [] = log_bytes deps frames)
    (hE : ∀ f ∈ frames, E f.entry)
    (hlast : ∀ f ∈ frames, f.entry.sequence ≠ MAX_SEQ) :
    Holds deps E (opened deps s log_path) frames := by
  have hopened : (opened deps s log_path).file = log_bytes deps frames := by
    rw [file, opened, DeletionLog.new_log_path]
    exact hfile
  refine ⟨hopened, hE, fun f hf => ?_⟩
  rcases hlookup : AList.lookup log_path s with _ | bytes
  · -- without a file there are no frames
    have hlen := @DeletionLog.length_le_log_bytes deps frames
    grind
  · rw [hlookup] at hfile
    show f.entry.sequence < (DeletionLog.new deps s log_path).sequence
    rw [DeletionLog.new_sequence hjson hE hlookup hfile]
    grind [lt_succ_of_le, DeletionLog.le_max_number, DeletionLog.max_number_eq]

variable {segment_id reason : String} {doc_id now : UInt64} {fault : Option WriteFault}

theorem run_log_deletion {bytes : Bytes}
    (hrec : DeletionLog.record deps (st.entry segment_id doc_id reason now) = .ok bytes) :
    st.run deps (.log_deletion segment_id doc_id reason now fault) =
      ⟨{ st.log with sequence := st.log.sequence + 1 },
        (st.storage.appendTo st.log.log_path bytes fault).2⟩ := by
  rw [entry] at hrec
  rw [run, DeletionLog.log_deletion]
  dsimp only
  rw [hrec]

theorem file_append (st : OpenLog) (sequence : UInt64) (bytes : Bytes) :
    file ⟨{ st.log with sequence }, (st.storage.appendTo st.log.log_path bytes fault).2⟩ =
      st.file ++ WriteFault.leaves bytes fault := by
  rcases fault with _ | (e | ⟨e, written⟩)
  · dsimp only [file, Storage.appendTo, WriteFault.leaves]
    rw [AList.lookup_insert]
    rfl
  · exact (List.append_nil _).symm
  · dsimp only [file, Storage.appendTo, WriteFault.leaves]
    rw [AList.lookup_insert]
    rfl

/-- **One step**: the entry that is in the file after it is the greatest. -/
theorem step (hjson : JsonOf deps E) {op : LogOp} (hadmitted : st.AppendsWhole deps E op)
    (hold : Holds deps E st frames) :
    ∃ added : List LogFrame, added.map LogFrame.entry = st.logged deps op ∧
      Holds deps E (st.run deps op) (frames ++ added) := by
  rcases op with ⟨segment_id, doc_id, reason, now, fault⟩ | _
  · obtain ⟨hE, hlast, hwhole⟩ := hadmitted
    obtain ⟨f, hentry, hrec⟩ := @DeletionLog.record_eq deps
      (st.entry segment_id doc_id reason now)
    have hrun := @run_log_deletion deps st segment_id reason doc_id now fault _ hrec
    have hfile := @file_append fault st (st.log.sequence + 1) (f.bytes deps)
    have hsucc : st.log.sequence < st.log.sequence + 1 := lt_succ hlast
    have hbelow : ∀ g ∈ frames, g.entry.sequence < st.log.sequence + 1 := fun g hg =>
      UInt64.lt_trans (hold.below g hg) hsucc
    rw [hold.file] at hfile
    rw [logged, hrec, hrun]
    dsimp only
    rcases hwhole _ hrec with hnone | hall
    · -- nothing has arrived
      have hpart : ¬ (WriteFault.leaves (f.bytes deps) fault).length = (f.bytes deps).length := by
        rw [hnone, LogFrame.bytes]
        simp
      rw [hnone, List.append_nil] at hfile
      refine ⟨[], (if_neg hpart).symm, ?_⟩
      rw [List.append_nil]
      exact ⟨hfile, hold.known, hbelow⟩
    · rw [if_pos (congrArg List.length hall)]
      rw [hall] at hfile
      refine ⟨[f], congrArg (fun e => [e]) hentry, ⟨?_, ?_, ?_⟩⟩
      · rw [hfile, log_bytes, log_bytes, List.flatMap_append, List.flatMap_singleton]
      · rw [List.forall_mem_append, List.forall_mem_singleton, hentry]
        exact ⟨hold.known, hE⟩
      · rw [List.forall_mem_append, List.forall_mem_singleton, hentry]
        exact ⟨hbelow, hsucc⟩
  · refine ⟨[], rfl, ?_⟩
    rw [List.append_nil]
    exact opened_below hjson hold.file hold.known fun f hf => ne_max_of_lt (hold.below f hf)

theorem sequence_of_mem_logged {op : LogOp} {e : DeletionLogEntry} (he : e ∈ st.logged deps op) :
    e.sequence = st.log.sequence := by
  rcases op with ⟨segment_id, doc_id, reason, now, fault⟩ | _
  · rw [logged] at he
    split at he
    · exact absurd he List.not_mem_nil
    · split at he
      · rw [List.mem_singleton.1 he]
        rfl
      · exact absurd he List.not_mem_nil
  · exact absurd he List.not_mem_nil

theorem reopen_sequence (hjson : JsonOf deps E) (hold : Holds deps E st frames)
    (hsome : frames ≠ []) :
    (st.run deps .reopen).log.sequence = DeletionLog.max_number 0 frames + 1 := by
  have hfile := hold.file
  rw [file] at hfile
  rcases hlookup : AList.lookup st.log.log_path st.storage with _ | bytes
  · have hlen := @DeletionLog.length_le_log_bytes deps frames
    rw [← hfile, hlookup] at hlen
    exact absurd (List.eq_nil_of_length_eq_zero (Nat.le_zero.1 hlen)) hsome
  · rw [hlookup] at hfile
    exact DeletionLog.new_sequence hjson hold.known hlookup hfile

theorem pairwise_logged (st : OpenLog) (op : LogOp) {R : DeletionLogEntry → DeletionLogEntry → Prop} :
    (st.logged deps op).Pairwise R := by
  rcases op with ⟨segment_id, doc_id, reason, now, fault⟩ | _
  · rw [logged]
    grind
  · exact List.Pairwise.nil

/-- **Every run**: what it has written is behind what was there, each entry
above all before it. -/
theorem run_holds (hjson : JsonOf deps E) {ops : List LogOp} : ∀ {st : OpenLog}
    {frames : List LogFrame}, Run.Admitted (AppendsWhole deps E) (run deps) ops st →
    Holds deps E st frames →
    ∃ added : List LogFrame, added.map LogFrame.entry = entries deps ops st ∧
      Holds deps E (ops.foldl (run deps) st) (frames ++ added) ∧
      (∀ e ∈ entries deps ops st, ∀ f ∈ frames, f.entry.sequence < e.sequence) ∧
      (entries deps ops st).Pairwise (fun d e => d.sequence < e.sequence) := by
  induction ops with
  | nil =>
      intro st frames _ hold
      exact ⟨[], rfl, by rw [List.append_nil]; exact hold, fun _ h => absurd h List.not_mem_nil,
        List.Pairwise.nil⟩
  | cons op ops ih =>
      intro st frames hadmitted hold
      obtain ⟨first, hfirst, hstep⟩ := step hjson hadmitted.1 hold
      obtain ⟨later, hlater, hrun, habove, hsorted⟩ := ih hadmitted.2 hstep
      rw [entries]
      refine ⟨first ++ later, ?_, ?_, ?_, ?_⟩
      · rw [List.map_append, hfirst, hlater]
      · grind
      · intro e he f hf
        rcases List.mem_append.1 he with he | he
        · rw [sequence_of_mem_logged he]
          exact hold.below f hf
        grind
      grind [pairwise_logged]

end OpenLog

open OpenLog in
/-- **The numbers of the log**, over a file that holds any frames: while
appends are whole, what a run has written ascends from above them, and the
log reads all of it when it opens again. -/
theorem deletion_log_numbers (hjson : JsonOf deps E) {s : Storage} {log_path : String}
    {frames : List LogFrame} {ops : List LogOp}
    (hfile : (AList.lookup log_path s).getD [] = log_bytes deps frames)
    (hE : ∀ f ∈ frames, E f.entry)
    (hlast : ∀ f ∈ frames, f.entry.sequence ≠ MAX_SEQ)
    (hadmitted : Run.Admitted (AppendsWhole deps E) (run deps) ops (opened deps s log_path)) :
    let st := ops.foldl (run deps) (opened deps s log_path)
    let written := OpenLog.entries deps ops (opened deps s log_path)
    (∀ e ∈ written, ∀ f ∈ frames, f.entry.sequence < e.sequence) ∧
      written.Pairwise (fun d e => d.sequence < e.sequence) ∧
      ∃ added : List LogFrame, added.map LogFrame.entry = written ∧
        st.file = log_bytes deps (frames ++ added) ∧
        (∀ f ∈ frames ++ added, f.entry.sequence < st.log.sequence) ∧
        (frames ++ added ≠ [] → (st.run deps .reopen).log.sequence =
          DeletionLog.max_number 0 (frames ++ added) + 1) := by
  obtain ⟨added, hadded, hold, habove, hsorted⟩ :=
    run_holds hjson hadmitted (opened_below hjson hfile hE hlast)
  exact ⟨habove, hsorted, added, hadded, hold.file, hold.below, reopen_sequence hjson hold⟩

/-! ## A log, and a torn append -/

/-- The text of an entry, as `serde_json` writes it. -/
def log_json (entry : DeletionLogEntry) : String :=
  "\x7b\"timestamp\":" ++ toString entry.timestamp.toNat ++
    ",\"segment_id\":\"" ++ entry.segment_id ++ "\",\"doc_id\":" ++ toString entry.doc_id.toNat ++
    ",\"reason\":\"" ++ entry.reason ++ "\",\"sequence\":" ++ toString entry.sequence.toNat ++ "\x7d"

/-- Document 3 of `s`, deleted under a number. -/
def numbered (sequence : UInt64) : DeletionLogEntry :=
  { timestamp := 0, segment_id := "s", doc_id := 3, reason := "user", sequence }

/-- The entries of the runs below, the last number among them. -/
def numberedEntries : List DeletionLogEntry :=
  [0, 1, 2, 4, 5, 6, 7, 0xFFFFFFFFFFFFFFFF].map numbered

def numberedDeps : DeletionDeps where
  roaring := { serialize_into := fun _ => [], deserialize_from := fun _ => .ok ∅ }
  crc32 := Crc32.checksum
  to_json := log_json
  from_json json := numberedEntries.find? fun entry => log_json entry == json

/-- A log of two entries, the first of them without the magic. -/
def numberedFrames : List LogFrame := [⟨numbered 4, 7, false⟩, ⟨numbered 2, 8, true⟩]

def numberedStorage (frames : List LogFrame) : Storage :=
  AList.insert "deletions.log" (log_bytes numberedDeps frames) ∅

def deletes (reason : String) (fault : Option WriteFault) : LogOp :=
  .log_deletion "s" 3 reason 0 fault

theorem numberedDeps_json : JsonOf numberedDeps (fun entry => entry ∈ numberedEntries) where
  reads := by decide +kernel
  object := by
    have hbrace : ∀ e ∈ numberedEntries,
        (numberedDeps.to_json e).toByteArray.data.toList.head? = some 0x7B := by decide +kernel
    exact fun e he => List.head?_eq_some_iff.1 (hbrace e he)
  fits := by decide +kernel

open OpenLog in
/-- Over a log of both trailers: two appends, the second after one that
failed and a reopen. -/
theorem deletion_log_numbers_two :
    let st := opened numberedDeps (numberedStorage numberedFrames) "deletions.log"
    let ops := [deletes "user" none, deletes "user" (some (.write (.storage "full") 0)), .reopen,
      deletes "user" none]
    (OpenLog.entries numberedDeps ops st).map (fun e => e.sequence) = [5, 6] ∧
      ∀ e ∈ OpenLog.entries numberedDeps ops st,
        ∀ f ∈ numberedFrames, f.entry.sequence < e.sequence := by
  refine ⟨by decide +kernel, (deletion_log_numbers numberedDeps_json rfl (by decide +kernel)
    (by decide +kernel) ?_).1⟩
  exact ⟨⟨by decide +kernel, by decide +kernel, fun _ _ => Or.inr rfl⟩,
    ⟨by decide +kernel, by decide +kernel, fun _ _ => Or.inl rfl⟩, trivial,
    ⟨by decide +kernel, by decide +kernel, fun _ _ => Or.inr rfl⟩, trivial⟩

open OpenLog in
/-- Two bytes of a record are left, the length of what is not there: the
entry behind them is not read, and its number is given again. So is every
number behind the last of all. -/
theorem deletion_log_numbers_counterexample :
    let reason := "a reason that takes the length of the entry past what one byte of it can say, " ++
      "which is one hundred and twenty-seven"
    let ops := [deletes "user" none, deletes reason (some (.write (.storage "full") 2)),
      deletes "user" none, .reopen, deletes "user" none, deletes "user" none]
    let written := OpenLog.entries numberedDeps ops (opened numberedDeps ∅ "deletions.log")
    ¬ written.Pairwise (fun d e => d.sequence < e.sequence) ∧
      written.map (fun e => e.sequence) = [0, 2, 1, 2] ∧
      (opened numberedDeps (numberedStorage [⟨numbered 0xFFFFFFFFFFFFFFFF, 7, true⟩])
        "deletions.log").log.sequence = 0 := by
  intro reason ops written
  have hnumbers : written.map (fun e => e.sequence) = [0, 2, 1, 2] := by decide +kernel
  refine ⟨fun hsorted => ?_, hnumbers, by decide +kernel⟩
  have hlt : (written.map fun e => e.sequence).Pairwise (fun m n => m < n) :=
    List.pairwise_map.2 hsorted
  rw [hnumbers] at hlt
  exact absurd hlt (by decide)

end Laurus
