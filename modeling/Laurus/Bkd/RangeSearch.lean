import Laurus.Bkd.Helpers.File
import Laurus.Common.SortDedup

/-!
# Range search of a tree

A coordinate is within a side by the total order of the doubles
(`KeyWithin`). The visitor compares with `<=` and `<`, and takes an open end
for an infinity that its flag excludes or includes (`CompareWithin`). What is
searched is exact where the two have the same documents
(`range_search_exact_iff`).
-/

namespace Laurus

open BKDReader BKDWriter

/-! ## Boxes -/

/-- A box to search: `None` leaves a side open. -/
structure RangeBox where
  mins : List (Option F64)
  maxs : List (Option F64)
  include_min : Bool
  include_max : Bool
  deriving DecidableEq, Repr

/-- Within a side, by the total order. -/
def KeyWithin (include_min include_max : Bool) (min max : Option F64) (x : F64) : Prop :=
  (∀ m ∈ min, if include_min then m.key ≤ x.key else m.key < x.key) ∧
    ∀ m ∈ max, if include_max then x.key ≤ m.key else x.key < m.key

/-- Within a side, as doubles compare, where an open end is an infinity. -/
def CompareWithin (include_min include_max : Bool) (min max : Option F64) (x : F64) : Prop :=
  (if include_min then (min.getD F64.NEG_INFINITY).le x
    else (min.getD F64.NEG_INFINITY).lt x) = true ∧
    (if include_max then x.le (max.getD F64.INFINITY) else x.lt (max.getD F64.INFINITY)) = true

namespace RangeBox

/-- A point is within the box, by what `within` says of each side. -/
def Holds (within : Bool → Bool → Option F64 → Option F64 → F64 → Prop) (box : RangeBox)
    (ctx : BuildContext) (i : ℕ) : Prop :=
  ∀ d < ctx.num_dims, within box.include_min box.include_max (box.mins.getD d none)
    (box.maxs.getD d none) (ctx.value i d)

/-- The documents that have one of the points within the box. -/
def Documents (within : Bool → Bool → Option F64 → Option F64 → F64 → Prop) (box : RangeBox)
    (ctx : BuildContext) (keep : ℕ → Bool) (doc : UInt64) : Prop :=
  ∃ i < ctx.doc_ids.length, keep i = true ∧ ctx.doc_id i = doc ∧ box.Holds within ctx i

end RangeBox

/-! ## Files -/

/-- The file of `write_sorted_by_doc_id`. -/
def build_sorted (sub : F64 → F64 → F64) (crc32 : Bytes → UInt32) (block_size : ℕ)
    (ctx : BuildContext) (keep : ℕ → Bool) : Except LaurusError Bytes :=
  match write_sorted_by_doc_id sub ctx.points ctx.doc_ids keep
      (BKDWriter.new block_size ctx.num_dims) with
  | .ok ((), w) => w.finish crc32
  | .error e => .error e

/-- The file of `write`. -/
def build (sub : F64 → F64 → F64) (crc32 : Bytes → UInt32) (block_size : ℕ) (ctx : BuildContext) :
    Except LaurusError Bytes :=
  match BKDWriter.write sub ctx.points ctx.doc_ids (BKDWriter.new block_size ctx.num_dims) with
  | .ok ((), w) => w.finish crc32
  | .error e => .error e

/-- The points kept, in buffers of their own. -/
def BuildContext.kept (ctx : BuildContext) (keep : ℕ → Bool) : BuildContext :=
  let order := (List.range ctx.doc_ids.length).filter keep
  { points := order.flatMap ctx.row, doc_ids := order.map ctx.doc_id, num_dims := ctx.num_dims }

/-- The points that a writer takes. -/
structure BuildContext.Valid (ctx : BuildContext) : Prop where
  dims_pos : 0 < ctx.num_dims
  dims_lt : ctx.num_dims < 2 ^ 32
  length_points : ctx.points.length = ctx.doc_ids.length * ctx.num_dims
  points_lt : ctx.points.length < 2 ^ 64
  count_lt : ctx.doc_ids.length < 2 ^ 32

open Laurus.Comp

variable {sub : F64 → F64 → F64} {crc32 : Bytes → UInt32} {block_size : ℕ} {ctx : BuildContext}
  {keep : ℕ → Bool} {box : RangeBox}

/-! ## Searching -/

theorem RangeBox.point_matches_iff (hmins : box.mins.length = ctx.num_dims)
    (hmaxs : box.maxs.length = ctx.num_dims) (i : ℕ) :
    (RangeQueryVisitor.new box.mins box.maxs box.include_min box.include_max).point_matches
      (ctx.row i) = true ↔ box.Holds CompareWithin ctx i := by
  rw [RangeQueryVisitor.point_matches_row]
  refine forall₂_congr fun d hd => ?_
  have hmin : (RangeQueryVisitor.new box.mins box.maxs box.include_min box.include_max).min_at d =
      (box.mins.getD d none).getD F64.NEG_INFINITY := by
    grind [RangeQueryVisitor.min_at, RangeQueryVisitor.new]
  have hmax : (RangeQueryVisitor.new box.mins box.maxs box.include_min box.include_max).max_at d =
      (box.maxs.getD d none).getD F64.INFINITY := by
    grind [RangeQueryVisitor.max_at, RangeQueryVisitor.new]
  rw [RangeQueryVisitor.lower_ok, RangeQueryVisitor.upper_ok, hmin, hmax]
  exact Iff.rfl

/-- **What a reader's range search returns.** -/
theorem Searches.range_search_eq {indices : List ℕ} {reader : BKDReader}
    (h : Searches ctx indices reader) (hmins : box.mins.length = ctx.num_dims)
    (hmaxs : box.maxs.length = ctx.num_dims) :
    ∃ hits, reader.range_search box.mins box.maxs box.include_min box.include_max = .ok hits ∧
      hits.Pairwise (· < ·) ∧
      ∀ doc, doc ∈ hits ↔ ∃ i ∈ indices, ctx.doc_id i = doc ∧ box.Holds CompareWithin ctx i := by
  obtain ⟨v', hrun, hits, rfl, hmem⟩ := h.intersect
    (RangeQueryVisitor.new box.mins box.maxs box.include_min box.include_max)
  refine ⟨_, ?_, pairwise_sorted_dedup hits, fun doc => ?_⟩
  · rw [range_search, hrun]
    rfl
  · rw [mem_sorted_dedup, hmem]
    exact exists_congr fun i => and_congr_right fun _ => and_congr_right fun _ =>
      RangeBox.point_matches_iff hmins hmaxs i

/-! ## Building -/

theorem check_buffers_valid (h : ctx.Valid) (block_size : ℕ) :
    check_buffers ctx.points ctx.doc_ids (BKDWriter.new block_size ctx.num_dims) =
      .ok (ctx.doc_ids.length, BKDWriter.new block_size ctx.num_dims) := by
  have hdims : (BKDWriter.new block_size ctx.num_dims).num_dims = ctx.num_dims := rfl
  have hlen := h.length_points
  have hpoints := h.points_lt
  have hcount := h.count_lt
  rw [check_buffers, bind_apply, get_apply]
  dsimp only
  rw [hdims, if_neg (by omega), if_neg (by omega), if_neg (by omega)]
  rfl

/-- The points kept, in the order they are built in. -/
def kept_order (ctx : BuildContext) (keep : ℕ → Bool) : List ℕ :=
  ((List.range ctx.doc_ids.length).filter keep).insertionSort fun a b =>
    ctx.doc_ids.getD a 0 ≤ ctx.doc_ids.getD b 0

theorem mem_kept_order {i : ℕ} :
    i ∈ kept_order ctx keep ↔ i < ctx.doc_ids.length ∧ keep i = true := by
  rw [kept_order, (List.perm_insertionSort _ _).mem_iff, List.mem_filter, List.mem_range]

theorem build_sorted_searches (h : ctx.Valid) (hblock : 0 < block_size)
    (hblock32 : block_size < 2 ^ 32) (hnumbers : Numbers ctx (kept_order ctx keep)) :
    ∃ file, build_sorted sub crc32 block_size ctx keep = .ok file ∧
      (file.length < 2 ^ 64 → ∃ reader, open_file file = .ok reader ∧
        Searches ctx (kept_order ctx keep) reader) := by
  have hcount : (kept_order ctx keep).length < 2 ^ 32 := by
    refine lt_of_le_of_lt ?_ h.count_lt
    rw [kept_order, List.length_insertionSort]
    grind
  obtain ⟨w, file, hwrite, hfinish, hsearches⟩ := @write_permuted_searches (kept_order ctx keep) sub
    ctx.points ctx.doc_ids ctx.num_dims block_size hblock hblock32 h.dims_pos h.dims_lt hcount
    hnumbers crc32
  refine ⟨file, ?_, hsearches⟩
  rw [build_sorted, write_sorted_by_doc_id, bind_apply, check_buffers_valid h]
  dsimp only
  rw [← kept_order, hwrite]
  exact hfinish

theorem build_searches (h : ctx.Valid) (hblock : 0 < block_size) (hblock32 : block_size < 2 ^ 32)
    (hnumbers : Numbers ctx (List.range ctx.doc_ids.length)) :
    ∃ file, build sub crc32 block_size ctx = .ok file ∧
      (file.length < 2 ^ 64 → ∃ reader, open_file file = .ok reader ∧
        Searches ctx (List.range ctx.doc_ids.length) reader) := by
  have hcount : (List.range ctx.doc_ids.length).length < 2 ^ 32 := by
    rw [List.length_range]
    exact h.count_lt
  obtain ⟨w, file, hwrite, hfinish, hsearches⟩ := @write_permuted_searches
    (List.range ctx.doc_ids.length) sub ctx.points ctx.doc_ids ctx.num_dims block_size hblock
    hblock32 h.dims_pos h.dims_lt hcount hnumbers crc32
  refine ⟨file, ?_, hsearches⟩
  rw [build, BKDWriter.write, bind_apply, check_buffers_valid h]
  grind

theorem build_sorted_nan (h : ctx.Valid) (hnan : ¬ Numbers ctx (kept_order ctx keep)) :
    ∃ e, build_sorted sub crc32 block_size ctx keep = .error e := by
  have hne : kept_order ctx keep ≠ [] := by
    intro hnil
    rw [hnil] at hnan
    exact hnan fun i hi => absurd hi List.not_mem_nil
  have hsome := mt find_nan_eq_none.1 hnan
  obtain ⟨⟨doc_idx, dim⟩, hfind⟩ := Option.ne_none_iff_exists'.1 hsome
  rw [build_sorted, write_sorted_by_doc_id, bind_apply, check_buffers_valid h]
  dsimp only
  rw [← kept_order, write_permuted, bind_apply, get_apply]
  dsimp only
  rw [if_neg hne]
  erw [hfind]
  exact ⟨_, rfl⟩

/-! ## The points kept, in buffers of their own -/

theorem length_flatMap_row (ctx : BuildContext) (order : List ℕ) :
    (order.flatMap ctx.row).length = order.length * ctx.num_dims := by
  simp [BuildContext.row]

theorem getD_flatMap_row {order : List ℕ} {j i d : ℕ} (hj : order[j]? = some i)
    (hd : d < ctx.num_dims) :
    (order.flatMap ctx.row).getD (j * ctx.num_dims + d) default = ctx.value i d := by
  induction order generalizing j with
  | nil => simp at hj
  | cons first order ih =>
      have hrow : (ctx.row first).length = ctx.num_dims :=
        (List.length_map _).trans List.length_range
      rw [List.flatMap_cons, List.getD_eq_getElem?_getD]
      rcases j with _ | j
      · obtain rfl : first = i := by simpa using hj
        rw [Nat.zero_mul, Nat.zero_add, List.getElem?_append_left (hrow.symm ▸ hd)]
        simp [BuildContext.row, hd]
      grind

namespace BuildContext

/-- The points kept, in the order of their buffers. -/
def kept_points (ctx : BuildContext) (keep : ℕ → Bool) : List ℕ :=
  (List.range ctx.doc_ids.length).filter keep

theorem kept_valid (h : ctx.Valid) : (ctx.kept keep).Valid := by
  have hle : (ctx.kept_points keep).length ≤ ctx.doc_ids.length :=
    (List.length_filter_le _ _).trans List.length_range.le
  have hdocs : (ctx.kept keep).doc_ids.length = (ctx.kept_points keep).length := List.length_map _
  have hpoints : (ctx.kept keep).points.length =
      (ctx.kept_points keep).length * ctx.num_dims := length_flatMap_row ctx _
  have hmul := Nat.mul_le_mul_right ctx.num_dims hle
  exact {
    dims_pos := h.dims_pos
    dims_lt := h.dims_lt
    length_points := by rw [hpoints, hdocs]; rfl
    points_lt := by
      rw [hpoints]
      exact lt_of_le_of_lt hmul (h.length_points ▸ h.points_lt)
    count_lt := by
      rw [hdocs]
      exact lt_of_le_of_lt hle h.count_lt }

theorem kept_value {j i d : ℕ} (hj : (ctx.kept_points keep)[j]? = some i)
    (hd : d < ctx.num_dims) : (ctx.kept keep).value j d = ctx.value i d :=
  getD_flatMap_row hj hd

theorem kept_doc_id {j i : ℕ} (hj : (ctx.kept_points keep)[j]? = some i) :
    (ctx.kept keep).doc_id j = ctx.doc_id i := by
  have hdocs : (ctx.kept keep).doc_ids = (ctx.kept_points keep).map ctx.doc_id := rfl
  rw [doc_id, hdocs, List.getD_eq_getElem?_getD, List.getElem?_map, hj]
  rfl

theorem exists_kept_iff {P : ℕ → Prop} {Q : ℕ → Prop}
    (h : ∀ j i, (ctx.kept_points keep)[j]? = some i → (P j ↔ Q i)) :
    (∃ j ∈ List.range (ctx.kept keep).doc_ids.length, P j) ↔ ∃ i ∈ kept_order ctx keep, Q i := by
  have hdocs : (ctx.kept keep).doc_ids.length = (ctx.kept_points keep).length := List.length_map _
  have hmem : ∀ i, i ∈ ctx.kept_points keep ↔ i ∈ kept_order ctx keep := by
    intro i
    rw [mem_kept_order, kept_points, List.mem_filter, List.mem_range]
  rw [hdocs]
  constructor
  · rintro ⟨j, hj, hp⟩
    have hget := List.getElem?_eq_getElem (List.mem_range.1 hj)
    grind
  grind [List.mem_iff_getElem?]

theorem kept_numbers (h : Numbers ctx (kept_order ctx keep)) :
    Numbers (ctx.kept keep) (List.range (ctx.kept keep).doc_ids.length) := by
  have hdocs : (ctx.kept keep).doc_ids.length = (ctx.kept_points keep).length := List.length_map _
  intro j hj d hd
  rw [hdocs] at hj
  have hget := List.getElem?_eq_getElem (List.mem_range.1 hj)
  have hmem := List.mem_filter.1 (List.mem_of_getElem? hget)
  rw [kept_value hget hd]
  exact h _ (mem_kept_order.2 ⟨List.mem_range.1 hmem.1, hmem.2⟩) d hd

end BuildContext

/-! ## Exactness -/

/-- What is promised of a search of the points kept: `hits` are the documents
of the points within the box, once each and in order, the value range bounds
every point, and a tree of the kept points' own buffers gives the same. -/
structure SearchExact (sub : F64 → F64 → F64) (crc32 : Bytes → UInt32) (block_size : ℕ)
    (ctx : BuildContext) (keep : ℕ → Bool) (box : RangeBox) (file : Bytes) (reader : BKDReader)
    (hits : List UInt64) : Prop where
  built : build_sorted sub crc32 block_size ctx keep = .ok file
  opened : open_file file = .ok reader
  searched : reader.range_search box.mins box.maxs box.include_min box.include_max = .ok hits
  ascending : hits.Pairwise (· < ·)
  exact : ∀ doc, doc ∈ hits ↔ box.Documents KeyWithin ctx keep doc
  bounded : ∀ i < ctx.doc_ids.length, keep i = true → ∀ d < ctx.num_dims, ∃ min max n,
    reader.value_range d = some (min, max, n) ∧ min.key ≤ (ctx.value i d).key ∧
      (ctx.value i d).key ≤ max.key
  copied : ∃ file' reader', build sub crc32 block_size (ctx.kept keep) = .ok file' ∧
    open_file file' = .ok reader' ∧
    reader'.range_search box.mins box.maxs box.include_min box.include_max = .ok hits

theorem exists_kept_order_iff {Q : ℕ → Prop} :
    (∃ i ∈ kept_order ctx keep, Q i) ↔ ∃ i < ctx.doc_ids.length, keep i = true ∧ Q i := by
  refine exists_congr fun i => ?_
  rw [mem_kept_order, and_assoc]

/-- **What is built of points without a NaN**: its search returns the
documents within the box as doubles compare, and a tree of the kept points'
own buffers the same. -/
theorem build_sorted_search (hctx : ctx.Valid) (hblock : 0 < block_size)
    (hblock32 : block_size < 2 ^ 32) (hmins : box.mins.length = ctx.num_dims)
    (hmaxs : box.maxs.length = ctx.num_dims)
    (hsize : ∀ file, build_sorted sub crc32 block_size ctx keep = .ok file → file.length < 2 ^ 64)
    (hsize' : ∀ file, build sub crc32 block_size (ctx.kept keep) = .ok file →
      file.length < 2 ^ 64)
    (hnumbers : Numbers ctx (kept_order ctx keep)) :
    ∃ file reader hits,
      (∀ doc, doc ∈ hits ↔ box.Documents CompareWithin ctx keep doc) ∧
      ((∀ doc, box.Documents KeyWithin ctx keep doc ↔ box.Documents CompareWithin ctx keep doc) →
        SearchExact sub crc32 block_size ctx keep box file reader hits) ∧
      build_sorted sub crc32 block_size ctx keep = .ok file ∧ open_file file = .ok reader ∧
      reader.range_search box.mins box.maxs box.include_min box.include_max = .ok hits := by
  obtain ⟨file, hbuild, hopens⟩ := @build_sorted_searches sub crc32 block_size ctx keep hctx hblock
    hblock32 hnumbers
  obtain ⟨reader, hopen, hsearches⟩ := hopens (hsize file hbuild)
  obtain ⟨hits, hsearch, hascending, hmem⟩ := hsearches.range_search_eq hmins hmaxs
  obtain ⟨file', hbuild', hopens'⟩ := @build_searches sub crc32 block_size (ctx.kept keep)
    (BuildContext.kept_valid hctx) hblock hblock32 (BuildContext.kept_numbers hnumbers)
  obtain ⟨reader', hopen', hsearches'⟩ := hopens' (hsize' file' hbuild')
  obtain ⟨hits', hsearch', hascending', hmem'⟩ := 
    @Searches.range_search_eq _ box _ _ hsearches' hmins hmaxs
  -- the copies of the points are within the box where the points are
  have hcopies : ∀ doc, doc ∈ hits' ↔ doc ∈ hits := by
    intro doc
    rw [hmem', hmem]
    refine BuildContext.exists_kept_iff fun j i hj => ?_
    rw [BuildContext.kept_doc_id hj]
    refine and_congr_right fun _ => forall₂_congr fun d hd => ?_
    rw [BuildContext.kept_value hj hd]
  have heq : hits' = hits := by
    exact hascending'.eq_of_mem_iff hascending hcopies
  subst heq
  have hdocs : ∀ doc, doc ∈ hits' ↔ box.Documents CompareWithin ctx keep doc :=
    fun doc => (hmem doc).trans exists_kept_order_iff
  refine ⟨file, reader, hits', hdocs, fun hagree => ?_, hbuild, hopen, hsearch⟩
  exact {
    built := hbuild
    opened := hopen
    searched := hsearch
    ascending := hascending
    exact := fun doc => (hdocs doc).trans (hagree doc).symm
    bounded := by
      intro i hi hkeep d hd
      have hmem : i ∈ kept_order ctx keep := mem_kept_order.2 ⟨hi, hkeep⟩
      grind [Searches.range_some, List.ne_nil_of_mem]
    copied := ⟨file', reader', hbuild', hopen', hsearch'⟩ }

/-- **Range search is exact** where no coordinate kept is a NaN and a
document has a point within the box by the total order just where it has one
as doubles compare, an open end being an infinity that its flag excludes or
includes. -/
theorem range_search_exact_iff (sub : F64 → F64 → F64) (crc32 : Bytes → UInt32) {block_size : ℕ}
    {ctx : BuildContext} {keep : ℕ → Bool} {box : RangeBox} (hctx : ctx.Valid)
    (hblock : 0 < block_size) (hblock32 : block_size < 2 ^ 32)
    (hmins : box.mins.length = ctx.num_dims) (hmaxs : box.maxs.length = ctx.num_dims)
    (hsize : ∀ file, build_sorted sub crc32 block_size ctx keep = .ok file → file.length < 2 ^ 64)
    (hsize' : ∀ file, build sub crc32 block_size (ctx.kept keep) = .ok file →
      file.length < 2 ^ 64) :
    (∃ file reader hits, SearchExact sub crc32 block_size ctx keep box file reader hits) ↔
      (∀ i < ctx.doc_ids.length, keep i = true →
        ∀ d < ctx.num_dims, (ctx.value i d).is_nan = false) ∧
      ∀ doc, box.Documents KeyWithin ctx keep doc ↔ box.Documents CompareWithin ctx keep doc := by
  constructor
  · rintro ⟨file, reader, hits, hexact⟩
    have hnumbers : Numbers ctx (kept_order ctx keep) := by
      by_contra hnan
      obtain ⟨e, herror⟩ := @build_sorted_nan sub crc32 block_size ctx keep hctx hnan
      cases herror.symm.trans hexact.built
    obtain ⟨file', reader', hits', hdocs, -, hbuild, hopen, hsearch⟩ :=
      build_sorted_search hctx hblock hblock32 hmins hmaxs hsize hsize' hnumbers
    -- the file, the reader and the hits are the ones that were built
    obtain rfl : file = file' := Except.ok.inj (hexact.built.symm.trans hbuild)
    obtain rfl : reader = reader' := Except.ok.inj (hexact.opened.symm.trans hopen)
    obtain rfl : hits = hits' := Except.ok.inj (hexact.searched.symm.trans hsearch)
    exact ⟨fun i hi hkeep => hnumbers i (mem_kept_order.2 ⟨hi, hkeep⟩),
      fun doc => (hexact.exact doc).symm.trans (hdocs doc)⟩
  · rintro ⟨hnumbers, hagree⟩
    obtain ⟨file, reader, hits, -, hexact, -⟩ :=
      build_sorted_search hctx hblock hblock32 hmins hmaxs hsize hsize'
        fun i hi => hnumbers i (mem_kept_order.1 hi).1 (mem_kept_order.1 hi).2
    exact ⟨file, reader, hits, hexact hagree⟩

/-- A build and a search of it. -/
def search_built (sub : F64 → F64 → F64) (crc32 : Bytes → UInt32) (block_size : ℕ)
    (ctx : BuildContext) (keep : ℕ → Bool) (box : RangeBox) : Option (List UInt64) :=
  (build_sorted sub crc32 block_size ctx keep).toOption.bind fun file =>
    (open_file file).toOption.bind fun reader =>
      (reader.range_search box.mins box.maxs box.include_min box.include_max).toOption

theorem SearchExact.search_built_eq {file : Bytes} {reader : BKDReader} {hits : List UInt64}
    (h : SearchExact sub crc32 block_size ctx keep box file reader hits) :
    search_built sub crc32 block_size ctx keep box = some hits := by
  rw [search_built, h.built]
  show (open_file file).toOption.bind _ = some hits
  rw [h.opened]
  show (reader.range_search _ _ _ _).toOption = some hits
  rw [h.searched]
  rfl

/-- A point at negative infinity, and its document. -/
def lowest_point : BuildContext :=
  { points := [F64.NEG_INFINITY], doc_ids := [7], num_dims := 1 }

/-- Everything below five. -/
def below_five : RangeBox :=
  { mins := [none], maxs := [some ⟨0x4014000000000000⟩], include_min := false
    include_max := false }

/-- The document whose point is at negative infinity is not found below five. -/
theorem range_search_exact_counterexample :
    ¬ ∃ file reader hits, SearchExact (fun x _ => x) (fun _ => 0) 512 lowest_point (fun _ => true)
      below_five file reader hits := by
  rintro ⟨file, reader, hits, h⟩
  have hnone : search_built (fun x _ => x) (fun _ => 0) 512 lowest_point (fun _ => true)
      below_five = some [] := by decide +kernel
  obtain rfl : hits = [] := Option.some.inj (h.search_built_eq.symm.trans hnone)
  have hdoc : below_five.Documents KeyWithin lowest_point (fun _ => true) 7 := by
    refine ⟨0, Nat.one_pos, rfl, rfl, fun d hd => ?_⟩
    obtain rfl : d = 0 := Nat.lt_one_iff.1 hd
    refine ⟨fun m hm => absurd hm (Option.not_mem_none _), fun m hm => ?_⟩
    obtain rfl : m = ⟨0x4014000000000000⟩ := (Option.some.inj hm).symm
    decide
  exact List.not_mem_nil ((h.exact 7).2 hdoc)

/-- Three points of two documents. -/
def three_points : BuildContext :=
  { points := [⟨0x3FF0000000000000⟩, ⟨0x4000000000000000⟩, ⟨0x4008000000000000⟩]
    doc_ids := [5, 3, 3], num_dims := 1 }

theorem range_search_exact_iff_three :
    (∃ file reader hits, SearchExact (fun x _ => x) (fun _ => 0) 1 three_points (fun _ => true)
        below_five file reader hits) ↔
      (∀ i < three_points.doc_ids.length, true = true →
        ∀ d < three_points.num_dims, (three_points.value i d).is_nan = false) ∧
      ∀ doc, below_five.Documents KeyWithin three_points (fun _ => true) doc ↔
        below_five.Documents CompareWithin three_points (fun _ => true) doc := by
  have hlen : (build_sorted (fun x _ => x) (fun _ => 0) 1 three_points
      (fun _ => true)).toOption.map List.length = some 283 := by decide +kernel
  have hlen' : (build (fun x _ => x) (fun _ => 0) 1
      (three_points.kept fun _ => true)).toOption.map List.length = some 283 := by decide +kernel
  refine range_search_exact_iff _ _
    ⟨by decide, by decide, by decide, by decide, by decide⟩ (by decide) (by decide) (by decide)
    (by decide) (fun file hfile => ?_) fun file hfile => ?_
  · rw [hfile] at hlen
    have := Option.some.inj hlen
    omega
  · rw [hfile] at hlen'
    have := Option.some.inj hlen'
    omega

end Laurus
