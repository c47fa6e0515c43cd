import Laurus.Bkd.Helpers.Writer
import Laurus.Bkd.Model.Visitor

/-!
# The points of a cell

A cell's bounds bound its points, and a walk over cells with a range's
visitor hits the documents of the points that the visitor takes
(`finds_intersect`): a cell inside the range has no other points, and one
outside it none.
-/

namespace Laurus

variable {sub : F64 → F64 → F64} {ctx : BuildContext} {block_size : ℕ} {indices : List ℕ}
  {cell : Cell}

/-- The coordinates of a point. -/
def BuildContext.row (ctx : BuildContext) (i : ℕ) : List F64 :=
  (List.range ctx.num_dims).map (ctx.value i)

/-- None of the coordinates is a NaN. -/
def Numbers (ctx : BuildContext) (indices : List ℕ) : Prop :=
  ∀ i ∈ indices, ∀ d < ctx.num_dims, (ctx.value i d).is_nan = false

/-! ## Bounds -/

/-- The points are within the bounds. -/
structure Bounds (ctx : BuildContext) (indices : List ℕ) (min max : List F64) : Prop where
  min_length : min.length = ctx.num_dims
  max_length : max.length = ctx.num_dims
  within : ∀ i ∈ indices, ∀ d < ctx.num_dims,
    (min.getD d default).key ≤ (ctx.value i d).key ∧ (ctx.value i d).key ≤ (max.getD d default).key

theorem compute_aabb_bounds (ctx : BuildContext) (indices : List ℕ) :
    Bounds ctx indices (compute_aabb ctx indices).1 (compute_aabb ctx indices).2 where
  min_length := (List.length_map _).trans List.length_range
  max_length := (List.length_map _).trans List.length_range
  within i hi d hd := by
    have hmem : ctx.value i d ∈ indices.map (ctx.value · d) := List.mem_map.2 ⟨i, hi, rfl⟩
    simp only [compute_aabb, List.getD_eq_getElem?_getD, List.getElem?_map,
      List.getElem?_range hd, Option.map_some, Option.getD_some]
    exact ⟨F64.foldl_total_min _ _ _ hmem, F64.foldl_total_max _ _ _ hmem⟩

theorem compute_aabb_numbers (h : Numbers ctx indices) {d : ℕ} (hd : d < ctx.num_dims) :
    ((compute_aabb ctx indices).1.getD d default).is_nan = false ∧
      ((compute_aabb ctx indices).2.getD d default).is_nan = false := by
  have hall : ∀ x ∈ indices.map (ctx.value · d), x.is_nan = false := by
    intro x hx
    obtain ⟨i, hi, rfl⟩ := List.mem_map.1 hx
    exact h i hi d hd
  simp only [compute_aabb, List.getD_eq_getElem?_getD, List.getElem?_map,
    List.getElem?_range hd, Option.map_some, Option.getD_some]
  constructor
  · rcases F64.foldl_choice_mem F64.total_min_eq (indices.map (ctx.value · d)) F64.INFINITY with
      heq | hmem
    · rw [heq]
      decide
    · exact hall _ hmem
  · rcases F64.foldl_choice_mem F64.total_max_eq (indices.map (ctx.value · d)) F64.NEG_INFINITY with
      heq | hmem
    · rw [heq]
      decide
    · exact hall _ hmem

theorem mem_zip_iff_getD {α β : Type} [Inhabited α] [Inhabited β] {xs : List α} {ys : List β}
    {n : ℕ} (hx : xs.length = n) (hy : ys.length = n) {P : α × β → Prop} :
    (∀ p ∈ xs.zip ys, P p) ↔ ∀ d < n, P (xs.getD d default, ys.getD d default) := by
  constructor
  · intro h d hd
    refine h _ (List.mem_iff_getElem?.2 ⟨d, ?_⟩)
    grind
  grind [List.mem_iff_getElem?]

theorem exists_aabb (hdims : 0 < ctx.num_dims) (hne : indices ≠ []) (h : Numbers ctx indices) :
    ∃ box, AABB.new (compute_aabb ctx indices).1 (compute_aabb ctx indices).2 = .ok box ∧
      box.min = (compute_aabb ctx indices).1 ∧ box.max = (compute_aabb ctx indices).2 := by
  have hbounds := compute_aabb_bounds ctx indices
  have hordered : ∀ side ∈ (compute_aabb ctx indices).1.zip (compute_aabb ctx indices).2,
      side.1.le side.2 = true := by
    rw [mem_zip_iff_getD hbounds.min_length hbounds.max_length]
    intro d hd
    obtain ⟨hmin, hmax⟩ := compute_aabb_numbers h hd
    obtain ⟨i, hi⟩ := List.exists_mem_of_ne_nil _ hne
    have hi := hbounds.within i hi d hd
    exact F64.le_iff.2 ⟨hmin, hmax, F64.place_le (hi.1.trans hi.2)⟩
  have hempty : (compute_aabb ctx indices).1 ≠ [] :=
    List.ne_nil_of_length_pos (hbounds.min_length ▸ hdims)
  refine ⟨⟨_, _, hbounds.min_length.trans hbounds.max_length.symm, hempty, hordered⟩, ?_, rfl, rfl⟩
  rw [AABB.new, dif_pos (hbounds.min_length.trans hbounds.max_length.symm), dif_neg hempty,
    dif_pos hordered]

/-! ## What a range's visitor takes -/

theorem all_zipIdx_iff {α : Type} [Inhabited α] {xs : List α} {p : α × ℕ → Bool} :
    xs.zipIdx.all p = true ↔ ∀ d < xs.length, p (xs.getD d default, d) = true := by grind

namespace RangeQueryVisitor

variable {v : RangeQueryVisitor} {d : ℕ} {x y min max : F64}

theorem lower_ok_mono (h : v.lower_ok d x = true) (hkey : x.key ≤ y.key)
    (hy : y.is_nan = false) : v.lower_ok d y = true := by
  have hplace := F64.place_le hkey
  rw [lower_ok] at h ⊢
  split at h
  · rename_i hincl
    obtain ⟨hmin, -, hle⟩ := F64.le_iff.1 h
    rw [if_pos hincl]
    exact F64.le_iff.2 ⟨hmin, hy, hle.trans hplace⟩
  · rename_i hincl
    obtain ⟨hmin, -, hlt⟩ := F64.lt_iff.1 h
    rw [if_neg hincl]
    exact F64.lt_iff.2 ⟨hmin, hy, lt_of_lt_of_le hlt hplace⟩

theorem upper_ok_mono (h : v.upper_ok d y = true) (hkey : x.key ≤ y.key)
    (hx : x.is_nan = false) : v.upper_ok d x = true := by
  have hplace := F64.place_le hkey
  rw [upper_ok] at h ⊢
  split at h
  · rename_i hincl
    obtain ⟨-, hmax, hle⟩ := F64.le_iff.1 h
    rw [if_pos hincl]
    exact F64.le_iff.2 ⟨hx, hmax, hplace.trans hle⟩
  · rename_i hincl
    obtain ⟨-, hmax, hlt⟩ := F64.lt_iff.1 h
    rw [if_neg hincl]
    exact F64.lt_iff.2 ⟨hx, hmax, lt_of_le_of_lt hplace hlt⟩

theorem lower_ok_place (h : v.lower_ok d x = true) :
    (v.min_at d).place ≤ x.place ∧ (v.include_min = false → (v.min_at d).place < x.place) := by
  rw [lower_ok] at h
  split at h
  · rename_i hincl
    exact ⟨(F64.le_iff.1 h).2.2, fun hexcl => absurd (hexcl.symm.trans hincl) Bool.false_ne_true⟩
  grind [F64.lt_iff]

theorem upper_ok_place (h : v.upper_ok d x = true) :
    x.place ≤ (v.max_at d).place ∧ (v.include_max = false → x.place < (v.max_at d).place) := by
  rw [upper_ok] at h
  split at h
  · rename_i hincl
    exact ⟨(F64.le_iff.1 h).2.2, fun hexcl => absurd (hexcl.symm.trans hincl) Bool.false_ne_true⟩
  grind [F64.lt_iff]

theorem not_ok_of_disjoint (h : v.disjoint_at min max d = true) (hmin : min.key ≤ x.key)
    (hmax : x.key ≤ max.key) : ¬ (v.lower_ok d x = true ∧ v.upper_ok d x = true) := by
  rintro ⟨hlower, hupper⟩
  obtain ⟨hlow, hlow'⟩ := lower_ok_place hlower
  obtain ⟨hup, hup'⟩ := upper_ok_place hupper
  have hpmin := F64.place_le hmin
  have hpmax := F64.place_le hmax
  simp only [disjoint_at, Bool.or_eq_true, Bool.and_eq_true, Bool.not_eq_true', F64.le_iff,
    F64.lt_iff] at h
  grind

theorem point_matches_row (v : RangeQueryVisitor) (ctx : BuildContext) (i : ℕ) :
    v.point_matches (ctx.row i) = true ↔
      ∀ d < ctx.num_dims, v.lower_ok d (ctx.value i d) = true ∧
        v.upper_ok d (ctx.value i d) = true := by
  have hlen : (ctx.row i).length = ctx.num_dims := (List.length_map _).trans List.length_range
  rw [point_matches, all_zipIdx_iff, hlen]
  refine forall₂_congr fun d hd => ?_
  simp [BuildContext.row, List.getElem?_range hd]

/-- **A cell's relation is that of its points.** -/
theorem compare_sound {box : AABB} (hbounds : Bounds ctx indices box.min box.max)
    (hnumbers : Numbers ctx indices) :
    (v.compare box = .Outside → ∀ i ∈ indices, v.point_matches (ctx.row i) = false) ∧
      (v.compare box = .Inside → ∀ i ∈ indices, v.point_matches (ctx.row i) = true) := by
  have hlen : (box.min.zip box.max).length = ctx.num_dims := by
    rw [List.length_zip, hbounds.min_length, hbounds.max_length, Nat.min_self]
  have hside : ∀ d < ctx.num_dims, (box.min.zip box.max).getD d default =
      (box.min.getD d default, box.max.getD d default) := by grind
  constructor
  · intro hout i hi
    rw [compare] at hout
    split at hout
    · rename_i hany
      refine Bool.eq_false_iff.2 fun hmatch => ?_
      rw [point_matches_row] at hmatch
      obtain ⟨entry, hentry, hdisjoint⟩ := List.any_eq_true.1 hany
      have hget := List.mem_zipIdx_iff_getElem?.1 hentry
      grind [Bounds.within, not_ok_of_disjoint]
    grind
  · intro hin i hi
    rw [compare] at hin
    split at hin
    · cases hin
    · split at hin
      · rename_i hall
        rw [all_zipIdx_iff, hlen] at hall
        rw [point_matches_row]
        intro d hd
        have hok := hall d hd
        rw [hside d hd, Bool.and_eq_true] at hok
        have hwithin := hbounds.within i hi d hd
        exact ⟨lower_ok_mono hok.1 hwithin.1 (hnumbers i hi d hd),
          upper_ok_mono hok.2 hwithin.2 (hnumbers i hi d hd)⟩
      · cases hin

end RangeQueryVisitor

/-! ## A walk over cells -/

section Walk

variable {V : Type} [IntersectVisitor V] (ctx)

/-- How a visitor takes bounds. -/
def relation (visitor : V) (min max : List F64) : CellRelation :=
  match AABB.new min max with
  | .ok box => IntersectVisitor.compare visitor box
  | .error _ => .Crosses

/-- The documents of a leaf, without its points. -/
def visit_docs (indices : List ℕ) (visitor : V) : V :=
  (leaf_docs ctx indices).foldl IntersectVisitor.visit_inside visitor

/-- The points of a leaf. -/
def visit_points (indices : List ℕ) (visitor : V) : V :=
  (leaf_order ctx indices).foldl
    (fun visitor i => IntersectVisitor.visit visitor (ctx.doc_id i) (ctx.row i)) visitor

namespace Cell

/-- All documents of a cell. -/
def collect : Cell → V → V
  | leaf _ _ indices, visitor => visit_docs ctx indices visitor
  | node _ _ _ _ left right, visitor => right.collect (left.collect visitor)

/-- What a node does of a child, by the relation of its bounds. -/
def by_relation (relation : CellRelation) (visitor inside crosses : V) : V :=
  match relation with
  | .Outside => visitor
  | .Inside => inside
  | .Crosses => crosses

/-- The walk of a cell that the visitor crosses. -/
def intersect : Cell → V → V
  | leaf min max indices, visitor =>
    by_relation (relation visitor min max) visitor (visit_docs ctx indices visitor)
      (visit_points ctx indices visitor)
  | node _ _ _ _ left right, visitor =>
    let visitor := by_relation (relation visitor left.min left.max) visitor
      (left.collect ctx visitor) (left.intersect visitor)
    by_relation (relation visitor right.min right.max) visitor
      (right.collect ctx visitor) (right.intersect visitor)

end Cell

end Walk

/-! ## The hits of a walk -/

/-- The hits of `v'` are those of `v`, and the documents of `found`. -/
def Finds (v v' : RangeQueryVisitor) (found : UInt64 → Prop) : Prop :=
  ∃ hits, v' = { v with hits := v.hits ++ hits } ∧ ∀ doc, doc ∈ hits ↔ found doc

namespace Finds

variable {v v' v'' : RangeQueryVisitor} {found found' : UInt64 → Prop}

theorem none (h : ∀ doc, ¬ found doc) : Finds v v found :=
  ⟨[], by rw [List.append_nil], fun doc => ⟨fun hmem => absurd hmem List.not_mem_nil,
    fun hfound => absurd hfound (h doc)⟩⟩

theorem trans (h : Finds v v' found) (h' : Finds v' v'' found') :
    Finds v v'' fun doc => found doc ∨ found' doc := by
  obtain ⟨hits, rfl, hmem⟩ := h
  obtain ⟨hits', rfl, hmem'⟩ := h'
  exact ⟨hits ++ hits', by simp only [List.append_assoc], fun doc => by
    rw [List.mem_append, hmem, hmem']⟩

theorem congr (h : Finds v v' found) (heq : ∀ doc, found doc ↔ found' doc) : Finds v v' found' := by
  obtain ⟨hits, hv, hmem⟩ := h
  exact ⟨hits, hv, fun doc => (hmem doc).trans (heq doc)⟩

end Finds

/-- A document of one of the points, that a visitor takes. -/
def Taken (ctx : BuildContext) (v : RangeQueryVisitor) (indices : List ℕ) (doc : UInt64) : Prop :=
  ∃ i ∈ indices, ctx.doc_id i = doc ∧ v.point_matches (ctx.row i) = true

theorem mem_leaf_order {i : ℕ} : i ∈ leaf_order ctx indices ↔ i ∈ indices :=
  (List.perm_insertionSort _ _).mem_iff

variable {v : RangeQueryVisitor}

theorem finds_docs
    (h : ∀ i ∈ indices, v.point_matches (ctx.row i) = true) :
    Finds v (visit_docs ctx indices v) (Taken ctx v indices) := by
  have hfold : ∀ (docs : List UInt64) (v : RangeQueryVisitor),
      docs.foldl IntersectVisitor.visit_inside v = { v with hits := v.hits ++ docs } := by
    intro docs
    induction docs with
    | nil =>
        simp
    | cons doc docs ih =>
        intro v
        rw [List.foldl_cons, ih]
        simp [IntersectVisitor.visit_inside, RangeQueryVisitor.visit_inside]
  refine ⟨leaf_docs ctx indices, hfold _ v, fun doc => ?_⟩
  rw [leaf_docs, List.mem_map]
  constructor
  · rintro ⟨i, hi, rfl⟩
    have hi := mem_leaf_order.1 hi
    exact ⟨i, hi, rfl, h i hi⟩
  · rintro ⟨i, hi, rfl, -⟩
    exact ⟨i, mem_leaf_order.2 hi, rfl⟩

theorem finds_points (ctx : BuildContext) (indices : List ℕ) (v : RangeQueryVisitor) :
    Finds v (visit_points ctx indices v) (Taken ctx v indices) := by
  have hfold : ∀ (order : List ℕ) (v : RangeQueryVisitor),
      Finds v (order.foldl (fun visitor i =>
        IntersectVisitor.visit visitor (ctx.doc_id i) (ctx.row i)) v) (Taken ctx v order) := by
    intro order
    induction order with
    | nil => exact fun v => .none fun doc ⟨i, hi, _⟩ => absurd hi List.not_mem_nil
    | cons i order ih =>
        intro v
        rw [List.foldl_cons]
        have hstep : IntersectVisitor.visit v (ctx.doc_id i) (ctx.row i) =
            if v.point_matches (ctx.row i) = true then v.visit_inside (ctx.doc_id i) else v := rfl
        rw [hstep]
        by_cases hmatch : v.point_matches (ctx.row i) = true
        · rw [if_pos hmatch]
          have hone : Finds v (v.visit_inside (ctx.doc_id i)) (· = ctx.doc_id i) :=
            ⟨[ctx.doc_id i], rfl, fun doc => List.mem_singleton⟩
          refine (hone.trans (ih _)).congr fun doc => ?_
          constructor
          · rintro (rfl | ⟨j, hj, hdoc, htaken⟩)
            · exact ⟨i, List.mem_cons_self, rfl, hmatch⟩
            · exact ⟨j, List.mem_cons_of_mem i hj, hdoc, htaken⟩
          · rintro ⟨j, hj, hdoc, htaken⟩
            rcases List.mem_cons.1 hj with rfl | hj
            · exact Or.inl hdoc.symm
            · exact Or.inr ⟨j, hj, hdoc, htaken⟩
        · rw [if_neg hmatch]
          refine (ih v).congr fun doc => ?_
          constructor
          · rintro ⟨j, hj, hdoc, htaken⟩
            exact ⟨j, List.mem_cons_of_mem i hj, hdoc, htaken⟩
          · rintro ⟨j, hj, hdoc, htaken⟩
            rcases List.mem_cons.1 hj with rfl | hj
            · exact absurd htaken hmatch
            · exact ⟨j, hj, hdoc, htaken⟩
  refine (hfold (leaf_order ctx indices) v).congr fun doc => exists_congr fun i => ?_
  rw [mem_leaf_order]

theorem Built.min_max (h : Built sub ctx block_size indices cell) :
    cell.min = (compute_aabb ctx indices).1 ∧ cell.max = (compute_aabb ctx indices).2 := by
  rcases h with _ | _
  · exact ⟨rfl, rfl⟩
  · exact ⟨rfl, rfl⟩

/-- Where the bounds are taken whole, so are the points, and where not at all, none. -/
theorem relation_sound (hdims : 0 < ctx.num_dims) (hne : indices ≠ [])
    (hnumbers : Numbers ctx indices) :
    (relation v (compute_aabb ctx indices).1 (compute_aabb ctx indices).2 = .Outside →
        ∀ i ∈ indices, v.point_matches (ctx.row i) = false) ∧
      (relation v (compute_aabb ctx indices).1 (compute_aabb ctx indices).2 = .Inside →
        ∀ i ∈ indices, v.point_matches (ctx.row i) = true) := by
  obtain ⟨box, hbox, hmin, hmax⟩ := exists_aabb hdims hne hnumbers
  rw [relation, hbox]
  exact RangeQueryVisitor.compare_sound (hmin ▸ hmax ▸ compute_aabb_bounds ctx indices) hnumbers

theorem finds_by_relation {inside crosses : RangeQueryVisitor} (hdims : 0 < ctx.num_dims)
    (hne : indices ≠ []) (hnumbers : Numbers ctx indices)
    (hinside : (∀ i ∈ indices, v.point_matches (ctx.row i) = true) →
      Finds v inside (Taken ctx v indices))
    (hcrosses : Finds v crosses (Taken ctx v indices)) :
    Finds v (Cell.by_relation (relation v (compute_aabb ctx indices).1
      (compute_aabb ctx indices).2) v inside crosses) (Taken ctx v indices) := by
  obtain ⟨hout, hin⟩ := relation_sound (v := v) hdims hne hnumbers
  rcases hrel : relation v (compute_aabb ctx indices).1 (compute_aabb ctx indices).2
  · exact hinside (hin hrel)
  · refine Finds.none ?_
    rintro doc ⟨i, hi, -, htaken⟩
    grind
  · exact hcrosses

theorem taken_halves {sorted : List ℕ} (hperm : sorted.Perm indices)
    (n : ℕ) (doc : UInt64) :
    Taken ctx v (sorted.take n) doc ∨ Taken ctx v (sorted.drop n) doc ↔
      Taken ctx v indices doc := by
  constructor
  · rintro (⟨i, hi, htaken⟩ | ⟨i, hi, htaken⟩)
    · exact ⟨i, hperm.mem_iff.1 (List.mem_of_mem_take hi), htaken⟩
    · exact ⟨i, hperm.mem_iff.1 (List.mem_of_mem_drop hi), htaken⟩
  · rintro ⟨i, hi, htaken⟩
    have hmem := hperm.mem_iff.2 hi
    rw [← List.take_append_drop n sorted] at hmem
    rcases List.mem_append.1 hmem with hmem | hmem
    · exact Or.inl ⟨i, hmem, htaken⟩
    · exact Or.inr ⟨i, hmem, htaken⟩

theorem Finds.taken_eq (ctx : BuildContext) {v' : RangeQueryVisitor} {found : UInt64 → Prop}
    (h : Finds v v' found) :
    Taken ctx v' = Taken ctx v ∧
      ∀ i, v'.point_matches (ctx.row i) = v.point_matches (ctx.row i) := by
  obtain ⟨hits, rfl, -⟩ := h
  exact ⟨rfl, fun _ => rfl⟩

/-- **All documents of a cell inside.** -/
theorem finds_collect (h : Built sub ctx block_size indices cell) :
    ∀ v : RangeQueryVisitor, (∀ i ∈ indices, v.point_matches (ctx.row i) = true) →
      Finds v (cell.collect ctx v) (Taken ctx v indices) := by
  induction h with
  | leaf hne hfits => exact fun v hall => finds_docs hall
  | @node indices sorted split_dim left right hmany hdim hsorted hleft hright ihl ihr =>
      intro v hall
      have hperm : sorted.Perm indices := hsorted ▸ List.perm_insertionSort _ _
      have hl := ihl v fun i hi => hall i (hperm.mem_iff.1 (List.mem_of_mem_take hi))
      obtain ⟨htaken, hmatches⟩ := hl.taken_eq ctx
      have hr := ihr (left.collect ctx v) fun i hi => by grind
      rw [htaken] at hr
      exact (hl.trans hr).congr (taken_halves hperm _)

/-- **The hits of a walk** are the documents of the points that are taken. -/
theorem finds_intersect (hdims : 0 < ctx.num_dims) (h : Built sub ctx block_size indices cell) :
    Numbers ctx indices → ∀ v : RangeQueryVisitor,
      Finds v (cell.intersect ctx v) (Taken ctx v indices) := by
  induction h with
  | leaf hne hfits =>
      intro hnumbers v
      exact finds_by_relation hdims hne hnumbers finds_docs (finds_points ctx _ v)
  | @node indices sorted split_dim left right hmany hdim hsorted hleft hright ihl ihr =>
      intro hnumbers v
      have hperm : sorted.Perm indices := hsorted ▸ List.perm_insertionSort _ _
      have hnl : Numbers ctx (sorted.take (indices.length / 2)) := fun i hi =>
        hnumbers i (hperm.mem_iff.1 (List.mem_of_mem_take hi))
      have hnr : Numbers ctx (sorted.drop (indices.length / 2)) := fun i hi =>
        hnumbers i (hperm.mem_iff.1 (List.mem_of_mem_drop hi))
      have hl := finds_by_relation hdims hleft.ne_nil hnl (finds_collect hleft v) (ihl hnl v)
      rw [← hleft.min_max.1, ← hleft.min_max.2] at hl
      set v' := Cell.by_relation (relation v left.min left.max) v (left.collect ctx v)
        (left.intersect ctx v)
      have hr := finds_by_relation hdims hright.ne_nil hnr (finds_collect hright v') (ihr hnr v')
      rw [← hright.min_max.1, ← hright.min_max.2, (hl.taken_eq ctx).1] at hr
      exact (hl.trans hr).congr (taken_halves hperm _)

end Laurus
