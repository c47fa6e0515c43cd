import Laurus.Bkd.Helpers.Cell
import Laurus.Bkd.Helpers.Packing
import Laurus.Bkd.Model.Reader

/-!
# Reading a leaf back

The blocks that the builder leaves read back as what they were written of:
the fields, the documents through their gaps, the coordinates through what
they are above the least (`gives_docs`, `gives_points`).
-/

namespace Laurus

open Laurus.Comp StructReader

/-! ## What a read gives -/

/-- On unread bytes that begin with `bs`, `p` gives `a` and leaves the rest. -/
def Gives {α : Type} (p : Read α) (bs : Bytes) (a : α) : Prop :=
  ∀ r t, r.rest = bs ++ t → ∃ r', p r = .ok (a, r') ∧ r'.rest = t ∧ r'.file = r.file

namespace Gives

variable {α β : Type} {p : Read α} {f : α → Read β} {bs cs : Bytes} {a : α} {b : β}

theorem of_reads (h : Reads p bs a) : Gives p bs a := fun r t hr =>
  ⟨_, h r t hr, rest_advance_of hr, rfl⟩

theorem pure (a : α) : Gives (Pure.pure a) [] a := fun r _ hr => ⟨r, rfl, hr, rfl⟩

theorem bind (hp : Gives p bs a) (hf : Gives (f a) cs b) : Gives (p >>= f) (bs ++ cs) b := by
  intro r t hr
  rw [List.append_assoc] at hr
  obtain ⟨r₁, h₁, hrest, hfile⟩ := hp r (cs ++ t) hr
  obtain ⟨r₂, h₂, hrest₂, hfile₂⟩ := hf r₁ t hrest
  refine ⟨r₂, ?_, hrest₂, hfile₂.trans hfile⟩
  rw [bind_apply, h₁]
  exact h₂

end Gives

theorem gives_u32 (n : ℕ) : Gives read_u32 (Bytes.ofNatLE 4 (UInt32.ofNat n).toNat)
    (UInt32.ofNat n) := .of_reads (reads_u32 _)

theorem gives_u64 (v : UInt64) : Gives read_u64 (Bytes.ofNatLE 8 v.toNat) v :=
  .of_reads (reads_u64 v)

theorem gives_f64s (vs : List F64) : Gives (read_f64s vs.length) (f64_bytes vs) vs := by
  induction vs with
  | nil => exact Gives.pure []
  | cons v vs ih =>
      have hlast : Gives (do return v :: (← read_f64s vs.length) : Read (List F64))
          (f64_bytes vs ++ []) (v :: vs) := ih.bind (Gives.pure _)
      rw [List.append_nil] at hlast
      exact (gives_u64 v.bits).bind hlast

theorem gives_child_aabb {num_dims : ℕ} {min max : List F64} {box : AABB}
    (hmin : min.length = num_dims) (hmax : max.length = num_dims)
    (hbox : AABB.new min max = .ok box) :
    Gives (BKDReader.read_child_aabb num_dims) (f64_bytes min ++ f64_bytes max) box := by
  subst hmin
  have hlast : Gives (Read.liftE (AABB.new min max)) [] box := by
    rw [hbox]
    exact Gives.pure box
  have hmaxs := gives_f64s max
  rw [hmax] at hmaxs
  have hsecond := hmaxs.bind (f := fun max => Read.liftE (AABB.new min max)) hlast
  rw [List.append_nil] at hsecond
  exact (gives_f64s min).bind hsecond

/-- The reader, gone to a place of its file. -/
def goes_to (r : StructReader) (position : ℕ) : StructReader :=
  { r with
    sequential := r.sequential && decide (position = r.position)
    position }

theorem seek_start_eq (r : StructReader) (offset : ℕ) :
    seek (.Start offset) r = .ok (offset, goes_to r offset) := by
  rw [seek, bind_apply, get_apply]
  dsimp only
  rfl

theorem seek_current_eq (r : StructReader) (n : ℕ) :
    seek (.Current n) r = .ok (r.position + n, goes_to r (r.position + n)) := by
  have htarget : r.target (.Current n) = (r.position + n : ℕ) := rfl
  rw [seek, bind_apply, get_apply]
  dsimp only
  rfl

theorem seek_current {bs t : Bytes} {r : StructReader} (hr : r.rest = bs ++ t) :
    ∃ n r', seek (.Current bs.length) r = .ok (n, r') ∧ r'.rest = t ∧ r'.file = r.file := by
  refine ⟨_, _, seek_current_eq r bs.length, ?_, rfl⟩
  rw [rest] at hr
  rw [rest, goes_to, ← List.drop_drop, hr, List.drop_left]

theorem gives_seek {bs : Bytes} : Gives (do let _ ← seek (.Current bs.length)) bs () := by
  intro r t hr
  obtain ⟨n, r', hseek, hrest, hfile⟩ := seek_current hr
  refine ⟨r', ?_, hrest, hfile⟩
  rw [bind_apply, hseek]
  rfl

theorem seek_offset (r : StructReader) (offset : ℕ) :
    ∃ r', seek (.Start offset) r = .ok (offset, r') ∧ r'.rest = r.file.drop offset ∧
      r'.file = r.file :=
  ⟨_, seek_start_eq r offset, rfl, rfl⟩

/-! ## The columns -/

section Columns

variable {ctx : BuildContext} {indices : List ℕ} {min max : List F64} {d : ℕ}

/-- The anchor and the bits of a dimension. -/
def side_bits (min max : List F64) (d : ℕ) : UInt64 × ℕ :=
  dim_point_bits (min.getD d default) (max.getD d default)

/-- **A coordinate is no further above the least than the greatest.** -/
theorem dim_column_lt (hbounds : Bounds ctx indices min max) (hd : d < ctx.num_dims) :
    ∀ v ∈ dim_column ctx indices min max d, v.toNat < 2 ^ (side_bits min max d).2 := by
  intro v hv
  obtain ⟨i, hi, rfl⟩ := List.mem_map.1 hv
  obtain ⟨hmin, hmax⟩ := hbounds.within i (mem_leaf_order.1 hi) d hd
  have hbase := toNat_sortable (min.getD d default)
  have htop := toNat_sortable (max.getD d default)
  have hvalue := toNat_sortable (ctx.value i d)
  have hlt := lt_of_bits_needed
    (f64_to_sortable_u64 (max.getD d default) - f64_to_sortable_u64 (min.getD d default))
  rw [UInt64.toNat_sub_of_le _ _ (UInt64.le_iff_toNat_le.2 (by omega))] at hlt
  simp only [dim_point_bits]
  rw [UInt64.toNat_sub_of_le _ _ (UInt64.le_iff_toNat_le.2 (by omega))]
  exact lt_of_le_of_lt (by omega) hlt

theorem add_sub_base (base v : UInt64) : base + (v - base) = v := by simp

theorem decode_column :
    (dim_column ctx indices min max d).map (fun delta =>
        sortable_u64_to_f64 ((side_bits min max d).1 + delta)) =
      (leaf_order ctx indices).map (ctx.value · d) := by
  rw [dim_column, List.map_map]
  refine List.map_congr_left fun i _ => ?_
  rw [Function.comp_apply, side_bits, add_sub_base, sortable_round_trip]

theorem length_leaf_order : (leaf_order ctx indices).length = indices.length :=
  List.length_insertionSort _ _

theorem length_dim_bytes (hbounds : Bounds ctx indices min max) (hd : d < ctx.num_dims) :
    (dim_bytes ctx indices min max d).length =
      packed_byte_len indices.length (side_bits min max d).2 := by
  have hlen : (dim_column ctx indices min max d).length = indices.length :=
    (List.length_map _).trans length_leaf_order
  rw [dim_bytes]
  split
  · have hpack := (pack_column_spec (dim_column_lt hbounds hd)).2
    rw [hlen] at hpack
    exact hpack
  · rename_i hzero
    have hbits : (side_bits min max d).2 = 0 := not_not.1 hzero
    rw [hbits]
    simp [packed_byte_len]

end Columns

/-! ## The documents -/

section Docs

variable {ctx : BuildContext} {indices : List ℕ}

theorem doc_id_deltas_tail (prev : UInt64) (docs : List UInt64) :
    doc_id_deltas prev docs = ((prev :: docs).zip docs).map fun w => w.2 - w.1 := by
  induction docs generalizing prev with
  | nil => rfl
  | cons doc docs ih => rw [doc_id_deltas, ih, List.zip_cons_cons, List.map_cons]

theorem length_doc_id_deltas (prev : UInt64) (docs : List UInt64) :
    (doc_id_deltas prev docs).length = docs.length := by
  induction docs generalizing prev with
  | nil => rfl
  | cons doc docs ih => rw [doc_id_deltas, List.length_cons, ih, List.length_cons]

theorem doc_id_deltas_le {docs : List UInt64} :
    ∀ delta ∈ doc_id_deltas (docs.headD 0) docs, delta ≤ max_delta docs := by
  rcases docs with _ | ⟨doc, docs⟩
  · exact fun delta hdelta => absurd hdelta List.not_mem_nil
  · intro delta hdelta
    rw [List.headD_cons, doc_id_deltas, UInt64.sub_self] at hdelta
    rcases List.mem_cons.1 hdelta with rfl | hdelta
    · exact UInt64.zero_le
    · rw [doc_id_deltas_tail] at hdelta
      have hmax : ∀ x y : UInt64, x.toNat ≤ (max x y).toNat ∧ y.toNat ≤ (max x y).toNat := by
        intro x y
        show x.toNat ≤ (if x ≤ y then y else x).toNat ∧ y.toNat ≤ (if x ≤ y then y else x).toNat
        grind [UInt64.le_iff_toNat_le]
      exact UInt64.le_iff_toNat_le.2 ((F64.foldl_choice
        (R := fun x y : UInt64 => y.toNat ≤ x.toNat) (fun _ => le_refl _)
        (fun _ _ _ hxy hyz => le_trans hyz hxy) hmax _ 0).2 delta hdelta)

theorem doc_id_deltas_lt :
    ∀ delta ∈ doc_id_deltas ((leaf_docs ctx indices).headD 0) (leaf_docs ctx indices),
      delta.toNat < 2 ^ leaf_doc_bits ctx indices := by
  intro delta hdelta
  exact lt_of_le_of_lt (UInt64.le_iff_toNat_le.1 (doc_id_deltas_le delta hdelta))
    (lt_of_bits_needed _)

theorem length_leaf_docs : (leaf_docs ctx indices).length = indices.length :=
  (List.length_map _).trans length_leaf_order

theorem length_doc_bytes : (doc_bytes ctx indices).length =
    packed_byte_len indices.length (leaf_doc_bits ctx indices) := by
  rw [doc_bytes]
  split
  · rw [(pack_column_spec doc_id_deltas_lt).2, length_doc_id_deltas, length_leaf_docs]
  · rename_i hzero
    rw [Nat.eq_zero_of_not_pos hzero]
    simp [packed_byte_len]

theorem leaf_docs_const (h : leaf_doc_bits ctx indices = 0) :
    ∀ doc ∈ leaf_docs ctx indices, doc = (leaf_docs ctx indices).headD 0 := by
  have hzero := bits_needed_eq_zero h
  have hdeltas : ∀ delta ∈ doc_id_deltas ((leaf_docs ctx indices).headD 0) (leaf_docs ctx indices),
      delta = 0 := by
    intro delta hdelta
    have hle := doc_id_deltas_le delta hdelta
    grind
  have hrun : ∀ (docs : List UInt64) (prev : UInt64),
      (∀ delta ∈ doc_id_deltas prev docs, delta = 0) → ∀ doc ∈ docs, doc = prev := by
    intro docs
    induction docs with
    | nil => simp
    | cons first docs ih =>
        intro prev hprev
        rw [doc_id_deltas, List.forall_mem_cons] at hprev
        have hfirst : first = prev := by grind
        subst hfirst
        rw [List.forall_mem_cons]
        exact ⟨rfl, ih first hprev.2⟩
  exact hrun _ _ hdeltas

end Docs

/-! ## The fields -/

section Fields

variable {ctx : BuildContext} {indices : List ℕ} {min max : List F64} {box : AABB}
  {total_point_count block_size : ℕ}

/-- The header that a leaf reads back as. -/
def leaf_header (ctx : BuildContext) (indices : List ℕ) (min max : List F64) (box : AABB) :
    LeafHeader :=
  { count := indices.length
    leaf_aabb := box
    doc_id_base := (leaf_docs ctx indices).headD 0
    doc_id_bits := leaf_doc_bits ctx indices
    point_base := (List.range ctx.num_dims).map fun d => (side_bits min max d).1
    point_bits := (List.range ctx.num_dims).map fun d => (side_bits min max d).2
    point_section_lens := (List.range ctx.num_dims).map fun d =>
      packed_byte_len indices.length (side_bits min max d).2
    doc_id_section_len := packed_byte_len indices.length (leaf_doc_bits ctx indices) }

theorem map_zip_eq_range {n : ℕ} (hmin : min.length = n) (hmax : max.length = n) :
    (min.zip max).map (fun side => dim_point_bits side.1 side.2) =
      (List.range n).map (side_bits min max) := by
  apply List.ext_getElem
  · simp [hmin, hmax]
  grind [side_bits]

theorem sum_section_lens (hbounds : Bounds ctx indices min max) :
    ((List.range ctx.num_dims).map fun d =>
      packed_byte_len indices.length (side_bits min max d).2).sum =
        (leaf_columns ctx indices min max).length := by
  rw [leaf_columns, List.length_flatMap]
  refine congrArg List.sum (List.map_congr_left fun d hd => ?_)
  exact (length_dim_bytes hbounds (List.mem_range.1 hd)).symm

theorem toNat_ofNat_lt {n : ℕ} (h : n < 2 ^ 32) : (UInt32.ofNat n).toNat = n := by
  rw [UInt32.toNat_ofNat']
  omega

/-- **The fields of a leaf read back.** -/
theorem read_leaf_header (hbounds : Bounds ctx indices min max) (hbox : AABB.new min max = .ok box)
    (hmin : box.min = min) (hmax : box.max = max) (hcount : indices.length < 2 ^ 32)
    (htotal : indices.length ≤ total_point_count) (hblock : indices.length ≤ block_size)
    {r : StructReader} {t : Bytes}
    (hr : r.rest = leaf_fields ctx indices min max ++
      (leaf_columns ctx indices min max ++ (doc_bytes ctx indices ++ t)))
    (hsize : r.rest.length < 2 ^ 64) :
    ∃ r', BKDReader.read_leaf_fixed_header ctx.num_dims total_point_count block_size r =
        .ok (leaf_header ctx indices min max box, r') ∧
      r'.rest = leaf_columns ctx indices min max ++ (doc_bytes ctx indices ++ t) ∧
      r'.file = r.file := by
  have hlength := congrArg List.length hr
  simp only [List.length_append] at hlength
  have hbits : leaf_doc_bits ctx indices ≤ 64 := bits_needed_le _
  have hbyte : (UInt8.ofNat (leaf_doc_bits ctx indices)).toNat = leaf_doc_bits ctx indices := by
    rw [UInt8.toNat_ofNat']
    omega
  have hdims := map_zip_eq_range hbounds.min_length hbounds.max_length
  have htotal_len : (((List.range ctx.num_dims).map (side_bits min max)).map fun dim =>
      packed_byte_len indices.length dim.2).sum +
        packed_byte_len indices.length (leaf_doc_bits ctx indices) =
      (leaf_columns ctx indices min max).length + (doc_bytes ctx indices).length := by
    rw [List.map_map, length_doc_bytes]
    exact congrArg (· + _) (sum_section_lens hbounds)
  simp only [leaf_fields, List.append_assoc] at hr
  rw [BKDReader.read_leaf_fixed_header]
  obtain ⟨r₁, h₁, hrest₁, hfile₁⟩ := gives_u32 indices.length r _ hr
  rw [bind_apply, h₁]
  dsimp only
  rw [toNat_ofNat_lt hcount, if_neg (not_lt.2 htotal), if_neg (not_lt.2 hblock)]
  rw [← List.append_assoc] at hrest₁
  obtain ⟨r₂, h₂, hrest₂, hfile₂⟩ :=
    gives_child_aabb hbounds.min_length hbounds.max_length hbox r₁ _ hrest₁
  rw [bind_apply, h₂]
  dsimp only
  obtain ⟨r₃, h₃, hrest₃, hfile₃⟩ := gives_u64 _ r₂ _ hrest₂
  rw [bind_apply, h₃]
  dsimp only
  obtain ⟨r₄, h₄, hrest₄, hfile₄⟩ := Gives.of_reads (reads_u8 _) r₃ _ hrest₃
  rw [bind_apply, h₄]
  dsimp only
  rw [hbyte, if_neg (not_lt.2 hbits), bind_apply, get_apply]
  dsimp only
  rw [hmin, hmax, hdims, htotal_len]
  have hremaining : r₄.remaining = (leaf_columns ctx indices min max).length +
      ((doc_bytes ctx indices).length + t.length) := by
    rw [← length_rest, hrest₄, List.length_append, List.length_append]
  have hchecked := (@checked_len_u64_eq_ok _ _ _ "BKD leaf packed data").2
    ⟨(by omega : (leaf_columns ctx indices min max).length + (doc_bytes ctx indices).length ≤
      r₄.remaining), (by omega : _ < 2 ^ 64), rfl⟩
  rw [hchecked]
  refine ⟨r₄, ?_, hrest₄, hfile₄.trans (hfile₃.trans (hfile₂.trans hfile₁))⟩
  simp only [List.map_map]
  rfl

end Fields

/-! ## The documents of a leaf -/

section Dispatch

variable {V : Type} [IntersectVisitor V] {ctx : BuildContext} {indices : List ℕ}
  {min max : List F64} {box : AABB}

open BKDReader

theorem dispatch_deltas_spec (buf : Option (List (List F64))) {bits : ℕ} (hbits : bits ≤ 64) :
    ∀ (docs : List UInt64) (i : ℕ) (prev : UInt64) (visitor : V) (r : BitReader),
      BitReader.Ready bits (doc_id_deltas prev docs) r →
      (i = 0 → ∀ doc ∈ docs.head?, doc = prev) →
      ∃ r', dispatch_deltas buf bits docs.length i prev visitor r =
        .ok ((docs.zipIdx i).foldl (fun v entry => dispatch buf v entry.1 entry.2) visitor, r') := by
  intro docs
  induction docs with
  | nil => exact fun i prev visitor r _ _ => ⟨r, rfl⟩
  | cons doc docs ih =>
      intro i prev visitor r hready hfirst
      obtain ⟨r₁, hread, hready₁⟩ := BitReader.Ready.read hready hbits
      obtain ⟨r', hrest⟩ := ih (i + 1) doc (dispatch buf visitor doc i) r₁ hready₁
        fun hzero => absurd hzero (Nat.succ_ne_zero i)
      refine ⟨r', ?_⟩
      have hno : ¬ (i = 0 ∧ doc - prev ≠ 0) := by
        rintro ⟨hi, hne⟩
        have heq := hfirst hi doc rfl
        grind
      rw [List.length_cons, dispatch_deltas, bind_apply, hread]
      dsimp only
      rw [if_neg hno, add_sub_base]
      exact hrest

theorem gives_raw_run {α : Type} {p : BitRead α} {raw : Bytes} {a : α} {b : BitReader}
    (h64 : raw.length < 2 ^ 64) (hp : p (BitReader.new raw) = .ok (a, b)) :
    Gives (do Read.lift (← read_raw_with raw.length p.run)) raw a := by
  have hrun : p.run raw = .ok a := by rw [BitRead.run, hp]
  have hread : Gives (read_raw_with raw.length p.run) raw (p.run raw) :=
    .of_reads (reads_raw_with h64)
  have hlift : Gives (Read.lift (p.run raw)) [] a := by
    rw [hrun]
    exact Gives.pure a
  have hboth := hread.bind hlift
  grind

/-- **The documents of a leaf read back**, each at its place. -/
theorem gives_docs (hne : indices ≠ []) (h64 : (doc_bytes ctx indices).length < 2 ^ 64)
    (buf : Option (List (List F64))) (visitor : V) :
    Gives (decode_doc_ids_and_dispatch (leaf_header ctx indices min max box) buf visitor)
      (doc_bytes ctx indices)
      ((leaf_docs ctx indices).zipIdx.foldl
        (fun v entry => dispatch buf v entry.1 entry.2) visitor) := by
  have hcount : 0 < indices.length := List.length_pos_iff.2 hne
  have hlen : (leaf_header ctx indices min max box).doc_id_section_len =
      packed_byte_len indices.length (leaf_doc_bits ctx indices) := rfl
  rw [decode_doc_ids_and_dispatch]
  by_cases hbits : leaf_doc_bits ctx indices = 0
  · -- one document, as often as the leaf has points
    have hzero : packed_byte_len indices.length 0 = 0 := by simp [packed_byte_len]
    rw [hlen, hbits, if_pos hzero, doc_bytes, if_neg (by omega)]
    have hdocs : leaf_docs ctx indices =
        List.replicate indices.length ((leaf_docs ctx indices).headD 0) :=
      List.eq_replicate_iff.2 ⟨length_leaf_docs, leaf_docs_const hbits⟩
    have hfold : (leaf_docs ctx indices).zipIdx.foldl
          (fun v entry => dispatch buf v entry.1 entry.2) visitor =
        (List.range indices.length).foldl
          (fun v i => dispatch buf v ((leaf_docs ctx indices).headD 0) i) visitor := by
      have hplaces : (List.replicate indices.length ((leaf_docs ctx indices).headD 0)).zipIdx =
          (List.range indices.length).map fun i => ((leaf_docs ctx indices).headD 0, i) := by
        apply List.ext_getElem
        · simp
        · intro i h₁ h₂
          simp
      conv_lhs => rw [hdocs]
      rw [hplaces, List.foldl_map]
    rw [hfold]
    exact Gives.pure _
  · have hpos : 0 < leaf_doc_bits ctx indices := Nat.pos_of_ne_zero hbits
    have hne : packed_byte_len indices.length (leaf_doc_bits ctx indices) ≠ 0 := by
      have hmul : 0 < indices.length * leaf_doc_bits ctx indices := Nat.mul_pos hcount hpos
      rw [packed_byte_len]
      omega
    obtain ⟨b, hrun⟩ := dispatch_deltas_spec buf (bits_needed_le _) (leaf_docs ctx indices) 0
      ((leaf_docs ctx indices).headD 0) visitor _ (BitReader.ready_pack_column doc_id_deltas_lt)
      (by
        grind [Option.mem_def])
    have hbytes : doc_bytes ctx indices = pack_column
        (doc_id_deltas ((leaf_docs ctx indices).headD 0) (leaf_docs ctx indices))
        (leaf_doc_bits ctx indices) := if_pos hpos
    rw [hlen, if_neg hne, ← length_doc_bytes]
    refine gives_raw_run h64 (b := b) ?_
    rw [hbytes]
    rw [length_leaf_docs] at hrun
    exact hrun

/-! ## The points of a leaf -/

theorem getD_map_range {α : Type} {n d : ℕ} (hd : d < n) (f : ℕ → α) (a : α) :
    ((List.range n).map f).getD d a = f d := by
  simp [hd]

/-- **A dimension reads back.** -/
theorem gives_dim (hne : indices ≠ []) (hbounds : Bounds ctx indices min max) {d : ℕ}
    (hd : d < ctx.num_dims) (h64 : (dim_bytes ctx indices min max d).length < 2 ^ 64) :
    Gives (decode_dim (leaf_header ctx indices min max box) d) (dim_bytes ctx indices min max d)
      ((leaf_order ctx indices).map (ctx.value · d)) := by
  have hcount : 0 < indices.length := List.length_pos_iff.2 hne
  have hlen : (dim_column ctx indices min max d).length = indices.length :=
    (List.length_map _).trans length_leaf_order
  have hlt := dim_column_lt hbounds hd
  rw [decode_dim]
  simp only [leaf_header, getD_map_range hd, ← length_dim_bytes hbounds hd]
  by_cases hbits : (side_bits min max d).2 = 0
  · -- every coordinate is the least
    have hzero : (dim_bytes ctx indices min max d).length = 0 := by
      rw [length_dim_bytes hbounds hd, hbits]
      simp [packed_byte_len]
    rw [if_pos hzero, List.length_eq_zero_iff.1 hzero]
    have hcolumn : (leaf_order ctx indices).map (ctx.value · d) =
        List.replicate indices.length (sortable_u64_to_f64 (side_bits min max d).1) := by
      rw [← @decode_column ctx indices min max d, List.eq_replicate_iff]
      refine ⟨(List.length_map _).trans hlen, fun x hx => ?_⟩
      obtain ⟨delta, hdelta, rfl⟩ := List.mem_map.1 hx
      have hnone := hlt delta hdelta
      rw [hbits, pow_zero, Nat.lt_one_iff] at hnone
      rw [UInt64.toNat_inj.1 (hnone.trans UInt64.toNat_zero.symm), UInt64.add_zero]
    rw [hcolumn]
    exact Gives.pure _
  · have hmul : 0 < indices.length * (side_bits min max d).2 :=
      Nat.mul_pos hcount (Nat.pos_of_ne_zero hbits)
    have hne : (dim_bytes ctx indices min max d).length ≠ 0 := by
      rw [length_dim_bytes hbounds hd, packed_byte_len]
      omega
    have hbytes : dim_bytes ctx indices min max d =
        pack_column (dim_column ctx indices min max d) (side_bits min max d).2 := if_pos hbits
    obtain ⟨b, hread⟩ := (BitReader.ready_pack_column hlt).read_values (bits_needed_le _)
    rw [hlen, ← hbytes] at hread
    rw [if_neg hne, ← @decode_column ctx indices min max d]
    have hlast : Gives (pure ((dim_column ctx indices min max d).map fun delta =>
        sortable_u64_to_f64 ((side_bits min max d).1 + delta)) : Read (List F64)) []
        ((dim_column ctx indices min max d).map fun delta =>
          sortable_u64_to_f64 ((side_bits min max d).1 + delta)) := Gives.pure _
    have hboth := (gives_raw_run h64 hread).bind (f := fun deltas => pure (deltas.map fun delta =>
        sortable_u64_to_f64 ((side_bits min max d).1 + delta))) hlast
    rw [List.append_nil, bind_assoc] at hboth
    exact hboth

/-- **The columns of a leaf read back.** -/
theorem gives_points (hne : indices ≠ []) (hbounds : Bounds ctx indices min max) (dims : List ℕ)
    (hdims : ∀ d ∈ dims, d < ctx.num_dims)
    (h64 : ∀ d ∈ dims, (dim_bytes ctx indices min max d).length < 2 ^ 64) :
    Gives (decode_points_into (leaf_header ctx indices min max box) dims)
      (dims.flatMap (dim_bytes ctx indices min max))
      (dims.map fun d => (leaf_order ctx indices).map (ctx.value · d)) := by
  induction dims with
  | nil => exact Gives.pure []
  | cons d dims ih =>
      rw [List.forall_mem_cons] at hdims h64
      have hrest := (ih hdims.2 h64.2).bind
        (f := fun columns => pure ((leaf_order ctx indices).map (ctx.value · d) :: columns))
        (Gives.pure _)
      rw [List.append_nil] at hrest
      exact (gives_dim hne hbounds hdims.1 h64.1).bind hrest

theorem point_at_columns {k i : ℕ} (hk : (leaf_order ctx indices)[k]? = some i) :
    point_at ((List.range ctx.num_dims).map fun d => (leaf_order ctx indices).map (ctx.value · d))
      k = ctx.row i := by
  rw [point_at, List.map_map, BuildContext.row]
  simp [hk]

theorem foldl_dispatch_none (docs : List UInt64) (k : ℕ) (visitor : V) :
    (docs.zipIdx k).foldl (fun v entry => dispatch none v entry.1 entry.2) visitor =
      docs.foldl IntersectVisitor.visit_inside visitor := by
  induction docs generalizing k visitor with
  | nil => rfl
  | cons doc docs ih =>
      exact ih _ _

theorem foldl_dispatch_points (visitor : V) :
    (leaf_docs ctx indices).zipIdx.foldl (fun v entry => dispatch
        (some ((List.range ctx.num_dims).map fun d => (leaf_order ctx indices).map (ctx.value · d)))
        v entry.1 entry.2) visitor = visit_points ctx indices visitor := by
  have hrun : ∀ (pre order : List ℕ) (visitor : V), leaf_order ctx indices = pre ++ order →
      ((order.map ctx.doc_id).zipIdx pre.length).foldl (fun v entry => dispatch
        (some ((List.range ctx.num_dims).map fun d => (leaf_order ctx indices).map (ctx.value · d)))
        v entry.1 entry.2) visitor =
      order.foldl (fun v i => IntersectVisitor.visit v (ctx.doc_id i) (ctx.row i)) visitor := by
    intro pre order
    induction order generalizing pre with
    | nil => exact fun visitor _ => rfl
    | cons i order ih =>
        intro visitor horder
        have hnext := ih (pre ++ [i]) (IntersectVisitor.visit visitor (ctx.doc_id i) (ctx.row i))
          (by rw [horder, List.append_assoc]; rfl)
        grind [dispatch, point_at_columns]
  exact hrun [] (leaf_order ctx indices) visitor rfl

end Dispatch

end Laurus
