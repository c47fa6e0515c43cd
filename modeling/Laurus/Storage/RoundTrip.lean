import Laurus.Common.Bytes
import Laurus.Storage.Helpers.Items

/-!
# A structured file reads back as it was written

`write_file` writes items and closes the file, its header reserved first and
filled last where it has one. `structured_file_round_trip`: the reads of the
same kinds return the items and end at the footer, both verifications accept
the file, and no reads and seeks make one accept a body whose checksum is
not the written one's.
-/

namespace Laurus

open Laurus.Comp

variable {crc32 : Bytes → UInt32}

/-! ## Writing a file -/

namespace StructWriter

/-- The writes of a file, whose header is reserved first and filled last. -/
def write_body : Option (List Item) → List Item → Write Unit
  | none, items => write_items items
  | some header, items => do
    reserve_header (header.flatMap Item.encode).length
    write_items items
    fill_header (write_items header)

/-- The file that `close` leaves. -/
def write_file (crc32 : Bytes → UInt32) (header : Option (List Item)) (items : List Item) :
    Except LaurusError Bytes :=
  match write_body header items new with
  | .ok ((), w) => w.close crc32
  | .error e => .error e

/-- **The running checksum is the one over the final bytes**, whichever way
the header was written. -/
theorem write_body_eq (header : Option (List Item)) (items : List Item) :
    write_body header items new = .ok ((), new.put ((header.getD [] ++ items).flatMap Item.encode)) := by
  cases header with
  | none => exact puts_items items new within_new
  | some header =>
      show (reserve_header (header.flatMap Item.encode).length >>= fun _ => write_items items >>=
        fun _ => fill_header (write_items header)) new = _
      rw [bind_apply, reserve_header_new]
      dsimp only
      rw [bind_apply, puts_items items _ (within_reserved _)]
      dsimp only
      rw [fill_reserved (puts_items header) rfl, Option.getD_some, List.flatMap_append]

theorem write_file_eq (crc32 : Bytes → UInt32) (header : Option (List Item)) (items : List Item) :
    let payload := (header.getD [] ++ items).flatMap Item.encode
    write_file crc32 header items = .ok (payload ++ footer crc32 payload) := by
  simp [write_file, write_body_eq, close_new_put]

end StructWriter

/-! ## Reading it -/

/-- A call on a reader. -/
inductive ReadOp
  | item (kind : ItemKind)
  | peek
  | is_eof
  | seek (pos : StructReader.SeekFrom)

namespace ReadOp

/-- The call; a typed read returns its item. -/
def run : ReadOp → Read (Option Item)
  | item kind => do return some (← kind.read)
  | peek => do
    let _ ← StructReader.peek_u32
    return none
  | is_eof => do
    let _ ← StructReader.is_eof
    return none
  | seek pos => do
    let _ ← StructReader.seek pos
    return none

/-- The calls that leave the cursor where it is. -/
def Look : ReadOp → Prop
  | peek | is_eof | seek (.Current 0) => True
  | _ => False

end ReadOp

namespace StructReader

/-- A sequence of calls, and the items they return. -/
def read_ops : List ReadOp → Read (List Item)
  | [] => return []
  | op :: ops => do
    let item ← op.run
    let items ← read_ops ops
    return item.toList ++ items

/-- The calls that read these items, with looks wherever there are any. -/
inductive ReadsBack : List ReadOp → List Item → Prop
  | nil : ReadsBack [] []
  | item {item : Item} {kind : ItemKind} {ops : List ReadOp} {items : List Item} :
      item.HasKind kind → ReadsBack ops items → ReadsBack (.item kind :: ops) (item :: items)
  | look {op : ReadOp} {ops : List ReadOp} {items : List Item} :
      op.Look → ReadsBack ops items → ReadsBack (op :: ops) items

theorem reads_look {op : ReadOp} (h : op.Look) : Reads op.run ([] : Bytes) none := by
  intro r t _
  rw [Input.advance_nil]
  unfold ReadOp.Look at h
  split at h
  · show (peek_u32 >>= fun _ => pure none) r = _
    unfold peek_u32
    by_cases hfour : r.remaining < 4
    · simp only [bind_apply, get_apply, if_pos hfour, pure_apply]
    · simp only [bind_apply, get_apply, if_neg hfour, pure_apply]
  · rfl
  · show (seek (.Current 0) >>= fun _ => pure none) r = _
    have htarget : r.target (.Current 0) = (r.position : ℤ) := Int.add_zero _
    unfold seek
    rw [bind_apply, bind_apply, get_apply]
    dsimp only
    rw [htarget, if_neg (by omega)]
    simp [bind_apply, pure_apply, set_apply]
  · exact h.elim

theorem reads_back {ops : List ReadOp} {items : List Item} (h : ReadsBack ops items)
    (hfits : ∀ item ∈ items, item.Fits) :
    Reads (read_ops ops) (items.flatMap Item.encode) items := by
  induction h with
  | nil => exact Reads.pure []
  | @item item kind ops items hkind _ ih =>
      have hread : Reads (ReadOp.item kind).run item.encode (some item) :=
        (reads_item hkind (hfits item List.mem_cons_self)).bind_nil (Reads.pure _)
      have hrest := ih fun i hi => hfits i (List.mem_cons_of_mem _ hi)
      exact hread.bind (hrest.bind_nil (Reads.pure _))
  | look hlook _ ih => exact (reads_look hlook).nil_bind ((ih hfits).bind_nil (Reads.pure _))

/-! ## What the checksum covers -/

/-- While no seek was made, the checksum covers the bytes before the cursor. -/
structure Tracks (file : Bytes) (r : StructReader) : Prop where
  same : r.file = file
  covered : r.sequential = true → r.hashed = file.take r.position ∧ r.position ≤ file.length

/-- `p` keeps track. -/
def Tracked {α : Type} (p : Read α) : Prop :=
  ∀ file, Triple (fun _ => False) (Tracks file) p fun _ => Tracks file

namespace Tracked

variable {α β : Type} {p : Read α} {f : α → Read β}

theorem pure (a : α) : Tracked (Pure.pure a : Read α) := fun _ => Triple.pure fun _ h => h

theorem throw (e : Fault) : Tracked (throw e : Read α) := fun _ => Triple.throw id

theorem bind (hp : Tracked p) (hf : ∀ a, Tracked (f a)) : Tracked (p >>= f) := fun file =>
  (hp file).bind fun a => hf a file

theorem get_bind {f : StructReader → Read β} (hf : ∀ r, Tracked (f r)) : Tracked (get >>= f) :=
  fun file => Triple.get_bind fun r _ => hf r file

theorem ite {c : Prop} [Decidable c] {q : Read α} (hp : Tracked p) (hq : Tracked q) :
    Tracked (if c then p else q) := fun file => Triple.ite (fun _ => hp file) fun _ => hq file

theorem liftE (x : Except LaurusError α) : Tracked (Read.liftE x) := by
  cases x with
  | error e => exact throw _
  | ok a => exact pure a

end Tracked

theorem Tracks.advance {file : Bytes} {r : StructReader} (h : Tracks file r) {n : ℕ}
    (hn : n ≤ r.rest.length) : Tracks file (r.advance (r.rest.take n)) := by
  refine ⟨h.same, fun hseq => ?_⟩
  have hseq' : r.sequential = true := hseq
  obtain ⟨hhashed, hle⟩ := h.covered hseq'
  have hrest : r.rest = file.drop r.position := by
    unfold rest
    rw [h.same]
  unfold StructReader.advance
  grind

theorem tracked_exact (n : ℕ) : Tracked (read_exact n) := by
  intro file r hr
  unfold read_exact
  rw [bind_apply, get_apply]
  dsimp only
  by_cases hle : n ≤ r.remaining
  · rw [if_pos hle]
    refine ⟨fun a r' h => ?_, fun _ _ => id⟩
    cases h
    exact hr.advance (by rw [length_rest]; exact hle)
  · rw [if_neg hle]
    refine ⟨fun a r' h => ?_, fun _ _ => id⟩
    cases h

theorem tracked_reserve (count : ℕ) : Tracked (reserve count) :=
  Tracked.get_bind fun _ => Tracked.ite (Tracked.throw _) (Tracked.pure _)

theorem tracked_u8 : Tracked read_u8 := by
  refine (tracked_exact 1).bind fun bytes => ?_
  split
  · exact Tracked.pure _
  · exact Tracked.throw _

theorem tracked_varint_loop : ∀ (room : ℕ) (buf : Bytes), Tracked (read_varint_loop room buf)
  | 0, _ => Tracked.throw _
  | room + 1, buf => by
      refine tracked_u8.bind fun byte => Tracked.ite (Tracked.pure _) ?_
      exact Tracked.ite (Tracked.throw _) (tracked_varint_loop room _)

theorem tracked_varint : Tracked read_varint :=
  (tracked_varint_loop 10 []).bind fun _ => (Tracked.liftE _).bind fun _ => Tracked.pure _

theorem tracked_raw (length : ℕ) : Tracked (read_raw length) :=
  Tracked.get_bind fun _ => (Tracked.liftE _).bind fun n =>
    (tracked_reserve n).bind fun _ => tracked_exact n

theorem tracked_raw_with {α : Type} (length : ℕ) (f : Bytes → α) :
    Tracked (read_raw_with length f) := (tracked_raw length).bind fun _ => Tracked.pure _

theorem tracked_raw_lent {α : Type} (length : ℕ) (f : Bytes → α) :
    Tracked (read_raw_lent length f) := by
  intro file r hr
  unfold read_raw_lent
  rw [bind_apply, get_apply]
  dsimp only
  by_cases hle : length ≤ r.rest.length
  · rw [if_pos hle]
    refine ⟨fun a r' h => ?_, fun _ _ => id⟩
    cases h
    exact hr.advance hle
  · rw [if_neg hle]
    exact tracked_raw_with length f file r hr

theorem tracked_deltas : ∀ (count : ℕ) (previous : UInt32), Tracked (read_deltas previous count)
  | 0, _ => Tracked.pure _
  | count + 1, previous => by
      exact tracked_varint.bind fun delta => (tracked_deltas count _).bind fun _ => Tracked.pure _

theorem tracked_bytes : Tracked read_bytes :=
  tracked_varint.bind fun _ => Tracked.get_bind fun _ => (Tracked.liftE _).bind fun n =>
    (tracked_reserve n).bind fun _ => tracked_exact n

theorem tracked_item (kind : ItemKind) : Tracked kind.read := by
  have hword : ∀ n, Tracked (read_exact n) := tracked_exact
  cases kind with
  | u8 => exact tracked_u8.bind fun _ => Tracked.pure _
  | varint => exact tracked_varint.bind fun _ => Tracked.pure _
  | bytes => exact tracked_bytes.bind fun _ => Tracked.pure _
  | string =>
      refine Tracked.bind ?_ fun _ => Tracked.pure _
      exact tracked_varint.bind fun _ => Tracked.get_bind fun _ => (Tracked.liftE _).bind fun n =>
        (tracked_reserve n).bind fun _ => (tracked_exact n).bind fun _ => Tracked.liftE _
  | delta_compressed_u32s =>
      refine Tracked.bind ?_ fun _ => Tracked.pure _
      exact tracked_varint.bind fun _ => Tracked.get_bind fun _ => (Tracked.liftE _).bind fun n =>
        (tracked_reserve n).bind fun _ => tracked_deltas n 0
  | raw length lends =>
      cases lends with
      | none => exact (tracked_raw length).bind fun _ => Tracked.pure _
      | some lends =>
          cases lends with
          | false => exact tracked_raw_with length _
          | true => exact tracked_raw_lent length _
  | _ => exact ((hword _).bind fun _ => Tracked.pure _).bind fun _ => Tracked.pure _

theorem tracked_seek (pos : SeekFrom) : Tracked (seek pos) := by
  intro file r hr
  unfold seek
  rw [bind_apply, get_apply]
  dsimp only
  by_cases hneg : r.target pos < 0
  · rw [if_pos hneg]
    refine ⟨fun a r' h => ?_, fun _ _ => id⟩
    cases h
  · rw [if_neg hneg]
    refine ⟨fun a r' h => ?_, fun _ _ => id⟩
    cases h
    refine ⟨hr.same, fun hseq => ?_⟩
    simp only [Bool.and_eq_true, decide_eq_true_eq] at hseq
    dsimp only
    rw [hseq.2]
    exact hr.covered hseq.1

theorem tracked_op (op : ReadOp) : Tracked op.run := by
  cases op with
  | item kind => exact (tracked_item kind).bind fun _ => Tracked.pure _
  | peek =>
      refine Tracked.bind ?_ fun _ => Tracked.pure _
      exact Tracked.get_bind fun _ => Tracked.ite (Tracked.pure _) (Tracked.pure _)
  | is_eof => exact (Tracked.get_bind fun _ => Tracked.pure _).bind fun _ => Tracked.pure _
  | seek pos => exact (tracked_seek pos).bind fun _ => Tracked.pure _

/-- **Whatever calls were made**, the checksum covers what lies before the
cursor, or none is kept. -/
theorem tracked_ops : ∀ ops : List ReadOp, Tracked (read_ops ops)
  | [] => Tracked.pure _
  | op :: ops => (tracked_op op).bind fun _ => (tracked_ops ops).bind fun _ => Tracked.pure _

/-! ## What verification accepts -/

theorem hash_chunks_eq : ∀ (fuel : ℕ) (bytes : Bytes), bytes.length < fuel →
    hash_chunks fuel bytes = bytes
  | 0, _, h => by omega
  | fuel + 1, bytes, h => by
      unfold hash_chunks
      by_cases hnil : bytes = []
      · rw [if_pos hnil, hnil]
      · have hpos : 0 < bytes.length := List.length_pos_iff.2 hnil
        have hchunk : VERIFY_CHUNK = 65536 := rfl
        have hshort : (bytes.drop VERIFY_CHUNK).length < fuel := by
          rw [List.length_drop]
          omega
        rw [if_neg hnil, hash_chunks_eq fuel _ hshort, List.take_append_drop]

/-- **What the whole-file check says of a footed file.** -/
theorem verify_file_checksum_footer (crc32 : Bytes → UInt32) (lends : Bool) (body payload : Bytes) :
    verify_file_checksum crc32 lends (body ++ StructWriter.footer crc32 payload) =
      if crc32 body = crc32 payload then .Verified else .Mismatch := by
  have hfooter := StructWriter.length_footer crc32 payload
  have height : FOOTER_LEN = 8 := rfl
  have hfour : LEGACY_TRAILER_LEN = 4 := rfl
  set file := body ++ StructWriter.footer crc32 payload with hfile
  have hlen : file.length = body.length + 8 := by grind
  have hcrc : (Bytes.ofNatLE 4 (crc32 payload).toNat).length = 4 := Bytes.length_ofNatLE 4 _
  have hlast : last_word file = FOOTER_MAGIC := by
    unfold last_word
    rw [hlen, hfour, hfile, StructWriter.footer, ← List.append_assoc,
      List.drop_left' (by rw [List.length_append, hcrc]; omega)]
    rfl
  have hbody : file.take (file.length - FOOTER_LEN) = body := by
    rw [hlen, height, Nat.add_sub_cancel, hfile, List.take_left]
  have hstored : UInt32.ofNat (Bytes.toNatLE ((file.drop (file.length - FOOTER_LEN)).take 4)) =
      crc32 payload := by
    rw [hlen, height, Nat.add_sub_cancel, hfile, List.drop_left, StructWriter.footer,
      List.take_left' hcrc, Bytes.toNatLE_ofNatLE (crc32 payload).toNat_lt, UInt32.ofNat_toNat]
  have hhashed : (if lends then body else hash_chunks (body.length + 1) body) = body := by
    split
    · rfl
    · exact hash_chunks_eq _ _ (Nat.lt_succ_self _)
  unfold verify_file_checksum
  rw [if_neg (by omega), if_neg (by grind)]
  simp only [hbody, hstored, hhashed]

theorem accepts_only_same_checksum {body payload : Bytes} {ops : List ReadOp} {items : List Item}
    {r r' : StructReader} {status : ChecksumStatus}
    (hread : read_ops ops (new (body ++ StructWriter.footer crc32 payload)) = .ok (items, r))
    (hverify : verify_checksum crc32 r = .ok (status, r')) (hne : status ≠ .Mismatch) :
    status = .Verified ∧ crc32 body = crc32 payload := by
  set file := body ++ StructWriter.footer crc32 payload with hfile
  have hfooter := StructWriter.length_footer crc32 payload
  have height : FOOTER_LEN = 8 := rfl
  have hfour : LEGACY_TRAILER_LEN = 4 := rfl
  have hlen : file.length = body.length + 8 := by grind
  have hcrc : (Bytes.ofNatLE 4 (crc32 payload).toNat).length = 4 := Bytes.length_ofNatLE 4 _
  have hnew : Tracks file (new file) := ⟨rfl, fun _ => ⟨List.take_zero.symm, Nat.zero_le _⟩⟩
  have htracks := (tracked_ops ops file).ok hnew hread
  obtain ⟨hseq, hcases⟩ := verify_checksum_accepts hverify hne
  obtain ⟨hhashed, hle⟩ := htracks.covered hseq
  have hrest : r.rest = file.drop r.position := by
    unfold rest
    rw [htracks.same]
  have hremaining : r.remaining = file.length - r.position := by
    unfold remaining
    rw [htracks.same]
  rcases hcases with ⟨hrem, hstatus, hstored, -⟩ | ⟨hrem, hmagic, -⟩
  · have hposition : r.position = body.length := by omega
    rw [hrest, hhashed, hposition, hfile, List.drop_left, List.take_left, StructWriter.footer,
      List.take_left' hcrc, Bytes.toNatLE_ofNatLE (crc32 payload).toNat_lt,
      UInt32.ofNat_toNat] at hstored
    exact ⟨hstatus, hstored.symm⟩
  · -- four bytes are left, and they are the magic
    refine absurd ?_ hmagic
    have hposition : r.position = (body ++ Bytes.ofNatLE 4 (crc32 payload).toNat).length := by grind
    rw [hrest, hposition, hfile, StructWriter.footer, ← List.append_assoc, List.drop_left]
    rfl

end StructReader

open StructReader StructWriter

/-- **A structured file reads back as it was written.** Whatever the items, with
or without a header that is filled last: the file closes; the reads of the
same kinds, over every path and with looks between them, return the items,
end at the footer and find the checksum right; so does the check of the
whole file; and of a file with the same footer and another body, no calls
at all, seeks included, make a check accept it unless its checksum is the
written one, when the whole-file check accepts it too. -/
theorem structured_file_round_trip (crc32 : Bytes → UInt32) (header : Option (List Item))
    (items : List Item) (hfits : ∀ item ∈ header.getD [] ++ items, item.Fits) :
    ∃ body trailer, write_file crc32 header items = .ok (body ++ trailer) ∧
      trailer.length = FOOTER_LEN ∧
      (∀ ops, ReadsBack ops (header.getD [] ++ items) →
        ∃ r, read_ops ops (StructReader.new (body ++ trailer)) = .ok (header.getD [] ++ items, r) ∧
          r.rest = trailer ∧ is_eof r = .ok (true, r) ∧
          ∃ r', verify_checksum crc32 r = .ok (.Verified, r')) ∧
      (∀ lends, verify_file_checksum crc32 lends (body ++ trailer) = .Verified) ∧
      ∀ body' ops items' r r' status,
        read_ops ops (StructReader.new (body' ++ trailer)) = .ok (items', r) →
        verify_checksum crc32 r = .ok (status, r') → status ≠ .Mismatch →
          status = .Verified ∧ crc32 body' = crc32 body ∧
          ∀ lends, verify_file_checksum crc32 lends (body' ++ trailer) = .Verified := by
  set payload := (header.getD [] ++ items).flatMap Item.encode with hpayload
  refine ⟨payload, footer crc32 payload, write_file_eq crc32 header items,
    length_footer crc32 payload, fun ops hops => ?_, fun lends => ?_, ?_⟩
  · have hreads := reads_back hops hfits
    set file := payload ++ footer crc32 payload with hfile
    have hread := hreads (new file) (footer crc32 payload) rfl
    rw [input_advance] at hread
    set r₁ := (new file).advance payload with hr₁
    have hrest : r₁.rest = footer crc32 payload := rest_advance_of rfl
    have hfooter := length_footer crc32 payload
    have hrem : r₁.remaining = FOOTER_LEN := by rw [← length_rest, hrest, hfooter]
    refine ⟨r₁, hread, hrest, ?_, verify_checksum_closed crc32 payload⟩
    rw [is_eof_eq, trailer_len_closed crc32 payload (show r₁.file = _ from rfl), hrem,
      decide_eq_true (Nat.le_refl _)]
  · rw [verify_file_checksum_footer, if_pos rfl]
  · intro body' ops items' r r' status hread hverify hne
    obtain ⟨hstatus, hsame⟩ := accepts_only_same_checksum hread hverify hne
    refine ⟨hstatus, hsame, fun lends => ?_⟩
    rw [verify_file_checksum_footer, if_pos hsame]

/-- A two-byte header, a name and a list of differences. -/
def sampleHeader : List Item := [.u16 7]

/-- The items after it. -/
def sampleItems : List Item := [.string "id", .delta_compressed_u32s [3, 1], .raw [0x2A]]

/-- Their reads, with a peek between two of them. -/
def sampleOps : List ReadOp :=
  [.item .u16, .item .string, .peek, .item .delta_compressed_u32s, .item (.raw 1 (some true))]

theorem structured_file_round_trip_sample :
    ∃ body trailer, write_file Crc32.checksum (some sampleHeader) sampleItems = .ok (body ++ trailer) ∧
      (∃ r, read_ops sampleOps (StructReader.new (body ++ trailer)) =
        .ok (sampleHeader ++ sampleItems, r)) ∧
      verify_file_checksum Crc32.checksum false (body ++ trailer) = .Verified := by
  have hfits : ∀ item ∈ (some sampleHeader).getD [] ++ sampleItems, item.Fits := by
    have hname : "id".utf8ByteSize < 18446744073709551616 := by decide
    simpa [sampleHeader, sampleItems, Item.Fits] using hname
  obtain ⟨body, trailer, hwrite, -, hread, hfile, -⟩ :=
    structured_file_round_trip Crc32.checksum (some sampleHeader) sampleItems hfits
  have hops : ReadsBack sampleOps (sampleHeader ++ sampleItems) :=
    .item trivial (.item trivial (.look trivial (.item trivial (.item rfl .nil))))
  obtain ⟨r, hitems, -⟩ := hread sampleOps hops
  exact ⟨body, trailer, hwrite, ⟨r, hitems⟩, hfile false⟩

end Laurus
