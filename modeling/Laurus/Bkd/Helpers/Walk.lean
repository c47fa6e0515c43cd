import Laurus.Bkd.Helpers.Packing
import Laurus.Bkd.Helpers.Tree
import Laurus.Bkd.Model.Reader
import Laurus.Storage.Helpers.Items

/-!
# The walk of any file

Whatever the bytes of a file are, what is read of a leaf and of a node does not
crash (`safe_read_leaf`, `read_node_spec`), and the children that a node is read
with are those of the graph. So only the levels of the graph can end the stack
(`intersect_subtree_spec`).
-/

namespace Laurus

open Laurus.Comp StructReader

/-! ## At a place of a file -/

/-- The reader is at a place of the file. -/
def ReadsAt (file : Bytes) (position : ℕ) (r : StructReader) : Prop :=
  r.file = file ∧ r.position = position

/-- The reader has the file. -/
def InFile (file : Bytes) (r : StructReader) : Prop := r.file = file

variable {file : Bytes} {position : ℕ}

theorem at_exact (length : ℕ) :
    Triple Fault.IsCrash (ReadsAt file position) (read_exact length) fun bytes r =>
      bytes = (file.drop position).take length ∧ length ≤ file.length - position ∧
        ReadsAt file (position + length) r := by
  rintro r ⟨rfl, rfl⟩
  rw [read_exact, bind_apply, get_apply]
  dsimp only
  by_cases hle : length ≤ r.remaining
  · rw [if_pos hle]
    refine ⟨fun bytes r' h => ?_, fun e h => ?_⟩
    · cases h
      have hlen : (r.rest.take length).length = length := by
        rw [List.length_take, length_rest]
        omega
      refine ⟨rfl, hle, rfl, ?_⟩
      show r.position + (r.rest.take length).length = _
      rw [hlen]
    · cases h
  · rw [if_neg hle]
    refine ⟨fun bytes r' h => ?_, fun e h => ?_⟩
    · cases h
    · cases h
      exact id

theorem at_u32 : Triple Fault.IsCrash (ReadsAt file position) read_u32 fun _ =>
    ReadsAt file (position + 4) :=
  (at_exact 4).bind fun _ => Triple.pure fun _ h => h.2.2

theorem at_u64 : Triple Fault.IsCrash (ReadsAt file position) read_u64 fun v r =>
    v.toNat = BKDReader.word_at file position ∧ position + 8 ≤ file.length ∧
      ReadsAt file (position + 8) r := by
  refine (at_exact 8).bind fun bytes => Triple.pure fun r h => ?_
  obtain ⟨rfl, hle, hat⟩ := h
  have hlt := Bytes.toNatLE_lt ((file.drop position).take 8)
  have hlen : ((file.drop position).take 8).length = 8 := by grind
  rw [hlen] at hlt
  refine ⟨?_, by omega, hat⟩
  exact Nat.mod_eq_of_lt hlt

theorem at_f64s (count : ℕ) : ∀ {position : ℕ},
    Triple Fault.IsCrash (ReadsAt file position) (read_f64s count) fun vs r =>
      vs.length = count ∧ ReadsAt file (position + 8 * count) r := by
  induction count with
  | zero => exact Triple.pure fun r h => ⟨rfl, h⟩
  | succ count ih =>
      intro position
      refine at_u64.bind fun v => ?_
      refine Triple.pre (P := ReadsAt file (position + 8)) ?_ fun r h => h.2.2
      grind [Triple.bind, Triple.pure]

theorem AABB.min_of_new {min max : List F64} {box : AABB} (h : AABB.new min max = .ok box) :
    box.min = min := by
  rw [AABB.new] at h
  grind

theorem at_child_aabb (num_dims : ℕ) :
    Triple Fault.IsCrash (ReadsAt file position) (BKDReader.read_child_aabb num_dims) fun box r =>
      box.min.length = num_dims ∧ ReadsAt file (position + 16 * num_dims) r := by
  refine (at_f64s num_dims).bind fun min => Triple.assume fun hmin => ?_
  refine (at_f64s num_dims).bind fun max => Triple.assume fun _ => ?_
  grind [safe_liftE, AABB.min_of_new]

theorem at_seek_start (offset : ℕ) :
    Triple Fault.IsCrash (InFile file) (seek (.Start offset)) fun _ => ReadsAt file offset := by
  rintro r rfl
  refine ⟨fun _ r' h => ?_, fun e h => ?_⟩
  · cases h
    exact ⟨rfl, rfl⟩
  · cases h

theorem at_seek_current (n : ℕ) :
    Triple Fault.IsCrash (ReadsAt file position) (seek (.Current n)) fun _ =>
      ReadsAt file (position + n) := by
  rintro r ⟨rfl, rfl⟩
  refine ⟨fun _ r' h => ?_, fun e h => ?_⟩
  · cases h
    exact ⟨rfl, rfl⟩
  · cases h

/-! ## Reads that keep the file -/

/-- Whatever is read of the file, no crash, and a value that is read meets `R`. -/
def ReadsIn {α : Type} (file : Bytes) (p : Read α) (R : α → Prop) : Prop :=
  Triple Fault.IsCrash (InFile file) p fun a r => R a ∧ InFile file r

namespace ReadsIn

variable {α β : Type} {p : Read α} {f : α → Read β} {R R' : α → Prop} {S : β → Prop}

theorem of_at {Q : ℕ → α → StructReader → Prop}
    (h : ∀ position, Triple Fault.IsCrash (ReadsAt file position) p (Q position))
    (hQ : ∀ position a r, Q position a r → R a ∧ InFile file r) : ReadsIn file p R :=
  fun r hr => (h r.position).post (hQ r.position) r ⟨hr, rfl⟩

theorem pure {a : α} (h : R a) : ReadsIn file (Pure.pure a) R := Triple.pure fun _ hr => ⟨h, hr⟩

theorem throw {e : LaurusError} : ReadsIn file (throw (Fault.error e)) R := Triple.throw id

theorem liftE {x : Except LaurusError α} (h : ∀ a, x = .ok a → R a) :
    ReadsIn file (Read.liftE x) R := safe_liftE fun a ha _ hr => ⟨h a ha, hr⟩

theorem bind (hp : ReadsIn file p R) (hf : ∀ a, R a → ReadsIn file (f a) S) :
    ReadsIn file (p >>= f) S :=
  Triple.bind hp fun a => Triple.assume (hf a)

theorem get_bind {f : StructReader → Read β} (hf : ∀ r, ReadsIn file (f r) S) :
    ReadsIn file (get >>= f) S := Triple.get_bind fun r _ => hf r

theorem ite {c : Prop} [Decidable c] {p q : Read α} (hp : c → ReadsIn file p R)
    (hq : ¬ c → ReadsIn file q R) : ReadsIn file (if c then p else q) R := Triple.ite hp hq

end ReadsIn

theorem in_u32 : ReadsIn file read_u32 fun _ => True :=
  .of_at (fun _ => at_u32) fun _ _ _ h => ⟨trivial, h.1⟩

theorem in_u64 : ReadsIn file read_u64 fun _ => True :=
  .of_at (fun _ => at_u64) fun _ _ _ h => ⟨trivial, h.2.2.1⟩

theorem in_u8 : ReadsIn file read_u8 fun _ => True := by
  refine .of_at (Q := fun _ _ => InFile file) (fun position => ?_) fun _ _ _ h => ⟨trivial, h⟩
  refine (at_exact 1).bind fun bytes => ?_
  intro r hr
  obtain ⟨hbytes, hle, hat⟩ := hr
  have hlen : bytes.length = 1 := by grind
  obtain ⟨byte, rfl⟩ := List.length_eq_one_iff.1 hlen
  exact Triple.pure (fun _ h => h) r hat.1

theorem in_child_aabb (num_dims : ℕ) :
    ReadsIn file (BKDReader.read_child_aabb num_dims) fun box => box.min.length = num_dims :=
  .of_at (fun _ => at_child_aabb num_dims) fun _ _ _ h => ⟨h.1, h.2.1⟩

theorem in_seek_start (offset : ℕ) : ReadsIn file (seek (.Start offset)) fun _ => True :=
  (at_seek_start offset).post fun _ _ h => ⟨trivial, h.1⟩

theorem in_seek_current (n : ℕ) : ReadsIn file (seek (.Current n)) fun _ => True :=
  .of_at (fun _ => at_seek_current n) fun _ _ _ h => ⟨trivial, h.1⟩

theorem in_raw_with {α : Type} (length : ℕ) (f : Bytes → α) :
    ReadsIn file (read_raw_with length f) fun a =>
      ∃ bytes : Bytes, bytes.length = length ∧ a = f bytes := by
  have hraw : Takes (read_raw_with length f) fun _ _ => True := by
    refine Takes.bind (S := fun _ _ => True) ?_ fun _ _ _ => Takes.pure trivial
    refine Takes.get_bind fun r => (takes_liftE _).bind fun len _ _ => ?_
    exact (takes_reserve len).bind fun _ _ _ => (takes_exact len).post fun _ _ _ => trivial
  have hframe : Triple (fun _ => False) (InFile file) (read_raw_with length f)
      fun _ => InFile file := by
    intro r hr
    refine ⟨fun a r' h => ?_, fun _ _ => id⟩
    obtain ⟨bs, t, -, rfl, -⟩ := hraw r a r' h
    exact hr
  have hsafe : Triple Fault.IsCrash (InFile file) (read_raw_with length f) fun a _ =>
      ∃ bytes : Bytes, bytes.length = length ∧ a = f bytes := fun r _ =>
    ((safe_raw_with r.remaining length f).post fun _ _ h => h.1) r rfl
  exact hsafe.and hframe

/-! ## A leaf -/

namespace BitReader

variable {r : BitReader} {bits c : ℕ}

theorem packed_le (count bits : ℕ) : bits * count ≤ 8 * packed_byte_len count bits := by
  rw [packed_byte_len, Nat.mul_comm]
  omega

theorem read_values_ok (hbits : bits ≤ 64) : ∀ {count c : ℕ} {r : BitReader}, At c r →
    c + bits * count ≤ 8 * r.data.length → ∃ vs r', read_values bits count r = .ok (vs, r') := by
  intro count
  induction count with
  | zero => exact fun {_ r} _ _ => ⟨[], r, rfl⟩
  | succ count ih =>
      intro c r h hroom
      rw [Nat.mul_succ] at hroom
      obtain ⟨v, r₁, hread, hat, hdata, -⟩ := read_spec h (by omega) hbits
      obtain ⟨vs, r₂, hrest⟩ := ih hat (by rw [hdata]; omega)
      refine ⟨v :: vs, r₂, ?_⟩
      rw [read_values, bind_apply, hread]
      dsimp only
      rw [bind_apply, hrest]
      rfl

end BitReader

namespace BKDReader

section Leaf

variable {V : Type} [IntersectVisitor V] {header : BKDFileHeader} {offset : ℕ}

theorem dispatch_deltas_ok {bits : ℕ} (hbits : bits ≤ 64) (buf : Option (List (List F64))) :
    ∀ {left i c : ℕ} {running : UInt64} {visitor : V} {r : BitReader}, BitReader.At c r →
      c + bits * left ≤ 8 * r.data.length →
      ∀ e, dispatch_deltas buf bits left i running visitor r = .error e → ¬ e.IsCrash := by
  intro left
  induction left with
  | zero =>
      intro i c running visitor r _ _ e he
      cases he
  | succ left ih =>
      intro i c running visitor r h hroom e he
      rw [Nat.mul_succ] at hroom
      obtain ⟨v, r₁, hread, hat, hdata, -⟩ := BitReader.read_spec h (by omega) hbits
      rw [dispatch_deltas, bind_apply, hread] at he
      dsimp only at he
      split at he
      · cases he
        exact id
      grind

/-- A leaf's header has the dimensions that were asked for, and the lengths of
its sections are those of its counts. -/
structure LeafOf (num_dims : ℕ) (leaf : LeafHeader) : Prop where
  dims : leaf.leaf_aabb.min.length = num_dims
  doc_bits : leaf.doc_id_bits ≤ 64
  doc_len : leaf.doc_id_section_len = packed_byte_len leaf.count leaf.doc_id_bits
  bits : ∀ d, leaf.point_bits.getD d 0 ≤ 64
  lens : ∀ d, leaf.point_section_lens.getD d 0 =
    packed_byte_len leaf.count (leaf.point_bits.getD d 0)

theorem packed_byte_len_zero (count : ℕ) : packed_byte_len count 0 = 0 := by
  rw [packed_byte_len, Nat.mul_zero]

theorem in_leaf_fixed_header (num_dims total_point_count block_size : ℕ) :
    ReadsIn file (read_leaf_fixed_header num_dims total_point_count block_size)
      (LeafOf num_dims) := by
  refine in_u32.bind fun count _ => ?_
  refine .ite (fun _ => .throw) fun _ => ?_
  refine .ite (fun _ => .throw) fun _ => ?_
  refine (in_child_aabb num_dims).bind fun leaf_aabb hdims => in_u64.bind fun doc_id_base _ => ?_
  refine in_u8.bind fun doc_id_bits _ => ?_
  refine .ite (fun _ => .throw) fun hbits => ?_
  refine .get_bind fun r => (ReadsIn.liftE fun _ _ => trivial).bind fun _ _ => .pure ?_
  have hat : ∀ d, (((leaf_aabb.min.zip leaf_aabb.max).map fun side =>
      dim_point_bits side.1 side.2).map Prod.snd).getD d 0 ≤ 64 := by
    intro d
    rw [List.getD_eq_getElem?_getD, List.map_map, List.getElem?_map]
    rcases (leaf_aabb.min.zip leaf_aabb.max)[d]? with _ | side
    · exact Nat.zero_le 64
    · exact bits_needed_le _
  refine ⟨hdims, not_lt.1 hbits, rfl, hat, fun d => ?_⟩
  simp only [List.getD_eq_getElem?_getD, List.getElem?_map]
  rcases (leaf_aabb.min.zip leaf_aabb.max)[d]? with _ | side
  · exact (packed_byte_len_zero _).symm
  · rfl

theorem in_skip_points (leaf : LeafHeader) : ReadsIn file (skip_points leaf) fun _ => True := by
  exact .ite (fun _ => (in_seek_current _).bind fun _ _ => .pure trivial) fun _ => .pure trivial

variable {num_dims : ℕ} {leaf : LeafHeader}

theorem in_lift {α : Type} {x : Except Fault α} (h : ∀ e, x = .error e → ¬ e.IsCrash) :
    ReadsIn file (Read.lift x) fun _ => True := by
  rcases x with e | a
  · exact Triple.throw (h e rfl)
  · exact .pure trivial

theorem run_error {α : Type} {p : BitRead α} {raw : Bytes} {e : Fault}
    (h : p.run raw = .error e) : p (BitReader.new raw) = .error e := by
  rw [BitRead.run] at h
  grind

theorem in_decode_dim (h : LeafOf num_dims leaf) (d : ℕ) :
    ReadsIn file (decode_dim leaf d) fun _ => True := by
  refine .ite (fun _ => .pure trivial) fun _ => ?_
  refine (in_raw_with _ _).bind fun values hvalues => ?_
  obtain ⟨raw, hlen, rfl⟩ := hvalues
  refine (in_lift fun e he => ?_).bind fun _ _ => .pure trivial
  have hroom := BitReader.packed_le leaf.count (leaf.point_bits.getD d 0)
  rw [h.lens d] at hlen
  obtain ⟨vs, r, hread⟩ := BitReader.read_values_ok (h.bits d) (BitReader.at_new raw)
    (by rw [BitReader.new, hlen, Nat.zero_add]; exact hroom)
  rw [run_error he] at hread
  cases hread

theorem in_decode_points (h : LeafOf num_dims leaf) : ∀ dims : List ℕ,
    ReadsIn file (decode_points_into leaf dims) fun columns => columns.length = dims.length := by
  intro dims
  induction dims with
  | nil => exact .pure rfl
  | cons d dims ih =>
      refine (in_decode_dim h d).bind fun _ _ => ih.bind fun columns hcolumns => .pure ?_
      grind

theorem in_docs (h : LeafOf num_dims leaf) (buf : Option (List (List F64))) (visitor : V) :
    ReadsIn file (decode_doc_ids_and_dispatch leaf buf visitor) fun _ => True := by
  refine .ite (fun _ => .pure trivial) fun _ => ?_
  refine (in_raw_with _ _).bind fun visited hvisited => ?_
  obtain ⟨raw, hlen, rfl⟩ := hvisited
  refine in_lift fun e he => ?_
  have hroom := BitReader.packed_le leaf.count leaf.doc_id_bits
  rw [h.doc_len] at hlen
  exact dispatch_deltas_ok h.doc_bits buf (BitReader.at_new raw)
    (by rw [BitReader.new, hlen, Nat.zero_add]; exact hroom) e (run_error he)

theorem in_read_leaf (header : BKDFileHeader) (offset : ℕ) :
    ReadsIn file (read_leaf header offset) (LeafOf header.num_dims) :=
  (in_seek_start offset).bind fun _ _ => in_leaf_fixed_header _ _ _

/-- **A leaf of any bytes is collected, or is an error.** -/
theorem in_collect_leaf (header : BKDFileHeader) (offset : ℕ) (visitor : V) :
    ReadsIn file (collect_leaf header offset visitor) fun _ => True := by
  refine (in_seek_start offset).bind fun _ _ => (in_leaf_fixed_header _ _ _).bind fun leaf h => ?_
  exact (in_skip_points leaf).bind fun _ _ => in_docs h none visitor

theorem in_intersect_leaf (header : BKDFileHeader) (offset : ℕ) (visitor : V) :
    ReadsIn file (intersect_leaf header offset visitor) fun _ => True := by
  refine (in_seek_start offset).bind fun _ _ => (in_leaf_fixed_header _ _ _).bind fun leaf h => ?_
  split
  · exact .pure trivial
  · exact (in_skip_points leaf).bind fun _ _ => in_docs h none visitor
  · exact (in_decode_points h _).bind fun columns _ => in_docs h (some columns) visitor

end Leaf

end BKDReader

/-! ## A node -/

namespace BKDReader

variable {header : BKDFileHeader} {offset : ℕ}

/-- **What is read of a node are its children in the graph.** -/
theorem read_offsets_spec (hoffset : header.index_start_offset ≤ offset) :
    Triple Fault.IsCrash (InFile file) (read_offsets header offset) fun both r =>
      children header file offset = some both ∧ InFile file r := by
  refine (at_seek_start offset).bind fun _ => at_u32.bind fun _ => at_u64.bind fun _ => ?_
  refine Triple.pre (P := ReadsAt file (offset + 4 + 8)) ?_ fun r h => h.2.2
  refine (at_seek_current _).bind fun _ => at_u64.bind fun left_offset => ?_
  refine Triple.assume fun hleft => ?_
  refine Triple.pre (P := ReadsAt file (offset + 4 + 8 + header.num_dims * 16 * 2 + 8)) ?_
    fun r h => h.2
  refine at_u64.bind fun right_offset => Triple.pure fun r h => ⟨?_, h.2.2.1⟩
  rw [children, BKDWriter.node_size, if_pos ⟨hoffset, by omega⟩, hleft, h.1]
  congr 3
  · omega
  · omega

theorem read_node_spec (hoffset : header.index_start_offset ≤ offset) :
    Triple Fault.IsCrash (InFile file) (read_node header offset) fun node r =>
      (children header file offset = some (node.left_offset, node.right_offset) ∧
        node.left_aabb.min.length = header.num_dims ∧
        node.right_aabb.min.length = header.num_dims) ∧ InFile file r := by
  refine (at_seek_start offset).bind fun _ => at_u32.bind fun _ => at_u64.bind fun _ => ?_
  refine Triple.pre (P := ReadsAt file (offset + 4 + 8)) ?_ fun r h => h.2.2
  refine (at_child_aabb _).bind fun left_aabb => Triple.assume fun hlbox => ?_
  refine (at_child_aabb _).bind fun right_aabb => Triple.assume fun hrbox => ?_
  refine at_u64.bind fun left_offset => Triple.assume fun hleft => ?_
  refine Triple.pre (P := ReadsAt file
    (offset + 4 + 8 + 16 * header.num_dims + 16 * header.num_dims + 8)) ?_ fun r h => h.2
  refine at_u64.bind fun right_offset => Triple.pure fun r h => ⟨⟨?_, hlbox, hrbox⟩, h.2.2.1⟩
  rw [children, BKDWriter.node_size, if_pos ⟨hoffset, by omega⟩, hleft, h.1]
  congr 3
  · omega
  · omega

/-! ## The subtrees -/

section Subtree

open Unfolding

variable {V : Type} {root : ℕ} {path : List Bool}

theorem children_lt {a : ℕ} (h : (children header file a).isSome) :
    a ∈ Finset.range (file.length - 27) := by
  grind [children, BKDWriter.node_size]

/-- **In a tree a path has fewer levels than the file bytes.** -/
theorem path_lt (hfile : 0 < file.length) (htree : OnePath (children header file) root)
    (hpath : follow (children header file) root path = some offset) :
    path.length < file.length := by
  have hcard := htree.length_le_card (fun _ => children_lt) hpath
  rw [Finset.card_range] at hcard
  omega

/-- What must not end the walk, when the graph is a tree. -/
def Astray (header : BKDFileHeader) (file : Bytes) (root : ℕ) (e : Fault) : Prop :=
  e.IsCrash ∧ OnePath (children header file) root

/-- A walk of the file from the end of a path on, with levels enough. -/
def Walks (header : BKDFileHeader) (file : Bytes) (root : ℕ) (p : Read V) : Prop :=
  Triple (Astray header file root) (InFile file) p fun _ => InFile file

theorem walks_of_in {p : Read V} {R : V → Prop} (h : ReadsIn file p R) :
    Walks header file root p :=
  (Triple.weaken h fun _ he => he.1).post fun _ _ ha => ha.2

/-- The levels that are enough for a path, less one, are enough for a path that
goes on by a side. -/
theorem levels_below {levels : ℕ} (h : file.length ≤ path.length + (levels + 1)) (side : Bool) :
    file.length ≤ (path ++ [side]).length + levels := by grind

theorem walks_overflow (hfile : 0 < file.length) (text : String)
    (hpath : follow (children header file) root path = some offset)
    (hlevels : file.length ≤ path.length + 0) :
    Walks header file root (throw (Fault.panicked text) : Read V) := by
  refine Triple.throw fun hastray => ?_
  have hlt := path_lt hfile hastray.2 hpath
  omega

variable {relation : CellRelation}

theorem walks_child {visitor : V} {collect intersect : Read V}
    (hcollect : Walks header file root collect) (hintersect : Walks header file root intersect) :
    Walks header file root (read_child relation visitor collect intersect) := by
  rcases relation with _ | _ | _
  · exact hcollect
  · exact Triple.pure fun _ hr => hr
  · exact hintersect

variable [IntersectVisitor V]

theorem collect_subtree_spec (hfile : 0 < file.length) : ∀ {levels : ℕ} {path : List Bool}
    {offset : ℕ} {visitor : V}, follow (children header file) root path = some offset →
      file.length ≤ path.length + levels →
      Walks header file root (collect_subtree header levels offset visitor) := by
  intro levels
  induction levels with
  | zero => exact fun hpath hlevels => walks_overflow hfile _ hpath hlevels
  | succ levels ih =>
      intro path offset visitor hpath hlevels
      rw [collect_subtree_succ]
      refine Triple.ite (fun _ => walks_of_in (in_collect_leaf header offset visitor)) fun hnode => ?_
      refine ((read_offsets_spec (not_lt.1 hnode)).weaken fun _ he => he.1).bind fun both => ?_
      refine Triple.assume fun hboth => ?_
      obtain ⟨hl, hr⟩ := follow_children hpath hboth
      have hless := levels_below hlevels
      exact (ih hl (hless _)).bind fun _ => ih hr (hless _)

theorem intersect_subtree_spec (hfile : 0 < file.length) : ∀ {levels : ℕ} {path : List Bool}
    {offset : ℕ} {visitor : V}, follow (children header file) root path = some offset →
      file.length ≤ path.length + levels →
      Walks header file root (intersect_subtree header levels offset visitor) := by
  intro levels
  induction levels with
  | zero => exact fun hpath hlevels => walks_overflow hfile _ hpath hlevels
  | succ levels ih =>
      intro path offset visitor hpath hlevels
      rw [intersect_subtree_succ]
      refine Triple.ite (fun _ => walks_of_in (in_intersect_leaf header offset visitor))
        fun hnode => ?_
      refine ((read_node_spec (not_lt.1 hnode)).weaken fun _ he => he.1).bind fun node => ?_
      refine Triple.assume fun hspec => ?_
      obtain ⟨hl, hr⟩ := follow_children hpath hspec.1
      have hless := levels_below hlevels
      exact (walks_child (collect_subtree_spec hfile hl (hless _)) (ih hl (hless _))).bind
        fun _ => walks_child (collect_subtree_spec hfile hr (hless _)) (ih hr (hless _))

/-! ## Where it comes -/

/-- The offsets of visits. -/
def offsets (visits : List Visit) : List ℕ := visits.map Visit.offset

theorem offsets_append (xs ys : List Visit) : offsets (xs ++ ys) = offsets xs ++ offsets ys :=
  List.map_append

theorem offsets_cons (visit : Visit) (visits : List Visit) :
    offsets (visit :: visits) = visit.offset :: offsets visits := List.map_cons

section After

variable {α β : Type} {p : Read α} {r r' : StructReader} {a : α} {e : Fault}
  {next : α → StructReader → List β}

theorem after_ok (h : p r = .ok (a, r')) : after p r next = next a r' := by
  rw [after, h]

theorem after_error (h : p r = .error e) : after p r next = [] := by
  rw [after, h]

end After

theorem along_child {collect intersect : List Visit}
    (hcollect : Along (children header file) root path (offsets collect))
    (hintersect : Along (children header file) root path (offsets intersect)) :
    Along (children header file) root path (offsets (child_visits relation collect intersect)) := by
  rcases relation with _ | _ | _
  · exact hcollect
  · exact Along.nil
  · exact hintersect

omit [IntersectVisitor V] in
theorem along_after {p : Read V} {r : StructReader} {next : V → StructReader → List Visit}
    (hp : Walks header file root p) (hr : InFile file r)
    (h : ∀ visitor r', InFile file r' →
      Along (children header file) root path (offsets (next visitor r'))) :
    Along (children header file) root path (offsets (after p r next)) := by
  rcases hwalk : p r with e | ⟨visitor, r'⟩
  · rw [after_error hwalk]
    exact Along.nil
  · rw [after_ok hwalk]
    exact h visitor r' (hp.ok hr hwalk)

/-- **Collecting comes along paths that differ.** -/
theorem along_collect (hfile : 0 < file.length) : ∀ {levels : ℕ} {path : List Bool} {offset : ℕ}
    {visitor : V} {r : StructReader}, follow (children header file) root path = some offset →
      file.length ≤ path.length + levels → InFile file r →
      Along (children header file) root path
        (offsets (collect_visits header levels offset visitor r)) := by
  intro levels
  induction levels with
  | zero => exact fun hpath _ _ => Along.singleton hpath
  | succ levels ih =>
      intro path offset visitor r hpath hlevels hr
      rw [collect_visits]
      split
      · exact Along.singleton hpath
      · rename_i hnode
        have hspec := @read_offsets_spec file header offset (not_lt.1 hnode)
        rw [offsets_cons]
        rcases hread : read_offsets header offset r with e | ⟨both, r₁⟩
        · rw [after_error hread]
          exact Along.singleton hpath
        · obtain ⟨hboth, hr₁⟩ := hspec.ok hr hread
          obtain ⟨hl, hright⟩ := follow_children hpath hboth
          grind [after_ok, offsets_append, Along.node, along_after, collect_subtree_spec]

/-- **The walk comes along paths that differ.** -/
theorem along_intersect (hfile : 0 < file.length) : ∀ {levels : ℕ} {path : List Bool} {offset : ℕ}
    {visitor : V} {r : StructReader}, follow (children header file) root path = some offset →
      file.length ≤ path.length + levels → InFile file r →
      Along (children header file) root path
        (offsets (intersect_visits header levels offset visitor r)) := by
  intro levels
  induction levels with
  | zero => exact fun hpath _ _ => Along.singleton hpath
  | succ levels ih =>
      intro path offset visitor r hpath hlevels hr
      rw [intersect_visits]
      split
      · exact Along.singleton hpath
      · rename_i hnode
        have hspec := @read_node_spec file header offset (not_lt.1 hnode)
        rw [offsets_cons]
        dsimp only
        rcases hread : read_node header offset r with e | ⟨node, r₁⟩
        · rw [after_error hread]
          exact Along.singleton hpath
        · obtain ⟨⟨hboth, -, -⟩, hr₁⟩ := hspec.ok hr hread
          obtain ⟨hl, hright⟩ := follow_children hpath hboth
          rw [after_ok hread, offsets_append]
          grind [Along.node, along_child, along_collect, along_after, walks_child,
            collect_subtree_spec, intersect_subtree_spec]

/-! ## The boxes that are compared -/

theorem mem_after {α β : Type} {p : Read α} {r : StructReader} {next : α → StructReader → List β}
    {b : β} (h : b ∈ after p r next) : ∃ a r', p r = .ok (a, r') ∧ b ∈ next a r' := by
  rcases hp : p r with e | ⟨a, r'⟩
  · rw [after_error hp] at h
    cases h
  · rw [after_ok hp] at h
    exact ⟨a, r', rfl, h⟩

/-- The boxes of a visit have so many dimensions. -/
def HasDims (num_dims : ℕ) (visit : Visit) : Prop := ∀ box ∈ visit.boxes, box.min.length = num_dims

theorem collect_boxes : ∀ {levels offset : ℕ} {visitor : V} {r : StructReader},
    ∀ visit ∈ collect_visits header levels offset visitor r, HasDims header.num_dims visit := by
  have hnone : ∀ {offset : ℕ}, HasDims header.num_dims ⟨offset, []⟩ :=
    fun _ h => absurd h List.not_mem_nil
  intro levels
  induction levels with
  | zero =>
      intro offset visitor r visit hvisit
      obtain rfl := List.mem_singleton.1 hvisit
      exact hnone
  | succ levels ih =>
      intro offset visitor r visit hvisit
      rw [collect_visits] at hvisit
      split at hvisit
      · grind
      · rcases List.mem_cons.1 hvisit with rfl | hvisit
        · exact hnone
        · obtain ⟨both, r₁, -, hvisit⟩ := mem_after hvisit
          rcases List.mem_append.1 hvisit with hvisit | hvisit
          · exact ih visit hvisit
          · obtain ⟨visitor, r₂, -, hvisit⟩ := mem_after hvisit
            exact ih visit hvisit

theorem child_boxes {collect intersect : List Visit}
    (hcollect : ∀ visit ∈ collect, HasDims header.num_dims visit)
    (hintersect : ∀ visit ∈ intersect, HasDims header.num_dims visit) :
    ∀ visit ∈ child_visits relation collect intersect, HasDims header.num_dims visit := by
  rcases relation with _ | _ | _
  · exact hcollect
  · exact fun _ h => absurd h List.not_mem_nil
  · exact hintersect

/-- **The boxes that are compared** have the dimensions of the header. -/
theorem intersect_boxes : ∀ {levels offset : ℕ} {visitor : V} {r : StructReader},
    ∀ visit ∈ intersect_visits header levels offset visitor r,
      HasDims header.num_dims visit := by
  intro levels
  induction levels with
  | zero =>
      intro offset visitor r visit hvisit
      obtain rfl := List.mem_singleton.1 hvisit
      exact fun _ h => absurd h List.not_mem_nil
  | succ levels ih =>
      intro offset visitor r visit hvisit
      rw [intersect_visits] at hvisit
      split at hvisit
      · obtain rfl := List.mem_singleton.1 hvisit
        intro box hbox
        obtain ⟨leaf, r₁, hread, hbox⟩ := mem_after hbox
        obtain rfl := List.mem_singleton.1 hbox
        exact ((in_read_leaf header offset).ok (show InFile r.file r from rfl) hread).1.dims
      · rename_i hnode
        rcases List.mem_cons.1 hvisit with rfl | hvisit
        · intro box hbox
          obtain ⟨node, r₁, hread, hbox⟩ := mem_after hbox
          obtain ⟨⟨-, hl, hr⟩, -⟩ :=
            (read_node_spec (not_lt.1 hnode)).ok (show InFile r.file r from rfl) hread
          grind
        · obtain ⟨node, r₁, -, hvisit⟩ := mem_after hvisit
          rcases List.mem_append.1 hvisit with hvisit | hvisit
          · exact child_boxes collect_boxes ih visit hvisit
          · obtain ⟨visitor, r₂, -, hvisit⟩ := mem_after hvisit
            exact child_boxes collect_boxes ih visit hvisit

end Subtree

/-! ## Every cell -/

section EveryCell

open Unfolding

variable {root : ℕ}

/-- **A walk of every cell that ends comes along all paths.** -/
theorem covers_every_cell (hfile : 0 < file.length) : ∀ {levels : ℕ} {path : List Bool}
    {offset : ℕ} {visitor visitor' : EveryCell} {r r' : StructReader},
      follow (children header file) root path = some offset →
      file.length ≤ path.length + levels → InFile file r →
      intersect_subtree header levels offset visitor r = .ok (visitor', r') →
      CoversTree (children header file) root path
        (offsets (intersect_visits header levels offset visitor r)) := by
  intro levels
  induction levels with
  | zero =>
      intro path offset visitor visitor' r r' _ _ _ hwalk
      cases hwalk
  | succ levels ih =>
      intro path offset visitor visitor' r r' hpath hlevels hr hwalk
      have hless := levels_below hlevels
      rw [intersect_subtree_succ] at hwalk
      rw [intersect_visits]
      split
      · rename_i hleaf
        refine CoversTree.leaf hpath (if_neg fun h => ?_)
        exact absurd hleaf (not_lt.2 h.1)
      · rename_i hnode
        rw [if_neg hnode] at hwalk
        obtain ⟨node, r₁, hread, hwalk⟩ := bind_eq_ok hwalk
        obtain ⟨visitor₁, r₂, hleft, hright⟩ := bind_eq_ok hwalk
        obtain ⟨⟨hboth, -, -⟩, hr₁⟩ := (read_node_spec (not_lt.1 hnode)).ok hr hread
        obtain ⟨hl, hrpath⟩ := follow_children hpath hboth
        have hr₂ : InFile file r₂ :=
          (intersect_subtree_spec hfile hl (hless _)).ok hr₁ hleft
        rw [offsets_cons]
        dsimp only
        rw [after_ok hread, offsets_append]
        refine CoversTree.node hpath (by rw [hboth]; rfl) (ih hl (hless _) hr₁ hleft) ?_
        have hleft' : intersect_subtree header levels node.left_offset visitor r₁ =
            .ok (visitor₁, r₂) := hleft
        show CoversTree (children header file) root (path ++ [true])
          (offsets (after (intersect_subtree header levels node.left_offset visitor) r₁
            fun visitor r => intersect_visits header levels node.right_offset visitor r))
        rw [after_ok hleft']
        exact ih hrpath (hless _) hr₂ hright

end EveryCell

end BKDReader

end Laurus
