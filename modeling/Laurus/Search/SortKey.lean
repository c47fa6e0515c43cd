import Laurus.Common.Rounding
import Laurus.Search.Helpers.FieldSort
import Mathlib.Order.Defs.Unbundled

/-!
# The comparator of sort values

Values of different kinds compare by their kinds, and within a kind the
comparator is a total preorder, the numbers excepted: an integer compares
with a double by conversion. Two integers that convert to one double tie with
it and not with each other (`Clash`), and without such values the comparator
obeys all laws (`compare_sort_key_laws`).
-/

namespace Laurus

/-- The conversions of the source, with any for instants, which no
comparison converts. -/
def doubles (of_datetime : ℤ → F64) : PointSpace := { of_int64 := F64.of_int, of_datetime }

/-- What a comparator owes a sort of `values`. -/
structure SortKeyLaws (𝕜 : Type) (P : PointSpace) (values : Set FieldValue) : Prop where
  antisymm : ∀ a ∈ values, ∀ b ∈ values,
    (compare_sort_key P a b).swap = compare_sort_key P b a
  trans : ∀ a ∈ values, ∀ b ∈ values, ∀ c ∈ values,
    compare_sort_key P a b ≠ .gt → compare_sort_key P b c ≠ .gt → compare_sort_key P a c ≠ .gt
  ties : Equivalence fun a b : values => compare_sort_key P a b = .eq
  strict : ∀ ascending, IsStrictOrder {hit : FieldHit 𝕜 // hit.value ∈ values}
    fun a b => a.1.rank P ascending b.1 = .lt
  total : ∀ (ascending : Bool) (a b : FieldHit 𝕜), a.value ∈ values → b.value ∈ values →
    a.doc_id ≠ b.doc_id → a.rank P ascending b = .lt ∨ b.rank P ascending a = .lt
  top_k : ∀ (ascending : Bool) (limit : ℕ) (hits : List (FieldHit 𝕜)),
    (hits.map FieldHit.doc_id).Nodup → (∀ hit ∈ hits, hit.value ∈ values) →
    (hits.foldl (FieldTopK.push P) (FieldTopK.new limit ascending)).hits =
      (hits.insertionSort (FieldHit.before P ascending)).take limit

/-- Two integers, and the double that both convert to. -/
def Clash (values : Set FieldValue) : Prop :=
  ∃ i j x, .int64 i ∈ values ∧ .int64 j ∈ values ∧ .float64 x ∈ values ∧ i ≠ j ∧
    F64.of_int i = x ∧ F64.of_int j = x

/-! ## Kinds -/

/-- The kinds in their order: a missing value is last. -/
def FieldValue.kind : FieldValue → ℕ
  | .null => 18
  | v => sort_type_rank v

variable {P : PointSpace} {a b c : FieldValue}

theorem compare_of_kind_lt (h : a.kind < b.kind) : compare_sort_key P a b = .lt := by
  cases a <;> cases b <;>
    first
    | rfl
    | exact absurd h (of_decide_eq_false rfl)

theorem kind_le (h : compare_sort_key P a b ≠ .gt) : a.kind ≤ b.kind := by
  by_contra hlt
  have hcmp := compare_of_kind_lt (P := P) (not_le.1 hlt)
  exact h (by rw [← compare_sort_key_swap, hcmp]; rfl)

/-! ## Values of one kind -/

theorem cmp_ne_gt {α : Type} [LinearOrder α] [DecidableLT α] {x y : α} :
    cmp x y ≠ .gt ↔ x ≤ y := by
  rw [← not_lt, cmp, cmpUsing]
  grind

theorem cmp_le_trans {α : Type} [LinearOrder α] [DecidableLT α] {x y z : α}
    (hxy : cmp x y ≠ .gt) (hyz : cmp y z ≠ .gt) : cmp x z ≠ .gt :=
  cmp_ne_gt.2 ((cmp_ne_gt.1 hxy).trans (cmp_ne_gt.1 hyz))

theorem then_ne_gt {o p : Ordering} : o.then p ≠ .gt ↔ o = .lt ∨ (o = .eq ∧ p ≠ .gt) := by
  rcases o <;> rcases p <;> decide

theorem cmp_then_trans {α β : Type} [LinearOrder α] [LinearOrder β] {x y z : α} {x' y' z' : β}
    (hxy : (cmp x y).then (cmp x' y') ≠ .gt) (hyz : (cmp y z).then (cmp y' z') ≠ .gt) :
    (cmp x z).then (cmp x' z') ≠ .gt := by
  grind [then_ne_gt, cmp_eq_lt_iff, cmp_eq_eq_iff, cmp_le_trans]

/-- **Values of one kind other than a number are in order.** -/
theorem compare_trans_of_kind (hnumber : a.kind ≠ 2) (hkind : a.kind = b.kind)
    (hkind' : b.kind = c.kind) (hab : compare_sort_key P a b ≠ .gt)
    (hbc : compare_sort_key P b c ≠ .gt) : compare_sort_key P a c ≠ .gt := by
  cases a <;> cases b <;>
    first
    | exact absurd rfl hnumber
    | exact absurd hkind (of_decide_eq_false rfl)
    | skip
  all_goals
    cases c <;>
      first
      | exact absurd hkind' (of_decide_eq_false rfl)
      | exact cmp_le_trans hab hbc
      | exact cmp_then_trans hab hbc
      | exact of_decide_eq_true rfl

/-! ## Numbers -/

variable {of_datetime : ℤ → F64} {values : Set FieldValue}

/-- The key of the double that a number is or converts to. -/
def FieldValue.number_key : FieldValue → ℤ
  | .int64 v => (F64.of_int v).key
  | .float64 x => x.key
  | _ => 0

theorem number_of_kind (h : a.kind = 2) : (∃ v, a = .int64 v) ∨ ∃ x, a = .float64 x := by
  cases a <;>
    first
    | exact Or.inl ⟨_, rfl⟩
    | exact Or.inr ⟨_, rfl⟩
    | exact absurd h (of_decide_eq_false rfl)

/-- **Numbers in order have their doubles in order.** -/
theorem number_key_le (ha : a.kind = 2) (hb : b.kind = 2)
    (hab : compare_sort_key (doubles of_datetime) a b ≠ .gt) : a.number_key ≤ b.number_key := by
  rcases number_of_kind ha with ⟨v, rfl⟩ | ⟨x, rfl⟩ <;>
    rcases number_of_kind hb with ⟨w, rfl⟩ | ⟨y, rfl⟩
  · exact F64.key_of_int_mono (cmp_ne_gt.1 hab)
  all_goals exact cmp_ne_gt.1 hab

theorem compare_of_number_key_le (ha : a.kind = 2) (hc : c.kind = 2)
    (hfloat : (∃ x, a = .float64 x) ∨ ∃ x, c = .float64 x) (h : a.number_key ≤ c.number_key) :
    compare_sort_key (doubles of_datetime) a c ≠ .gt := by
  rcases number_of_kind ha with ⟨v, rfl⟩ | ⟨x, rfl⟩ <;>
    rcases number_of_kind hc with ⟨w, rfl⟩ | ⟨y, rfl⟩
  · grind
  all_goals exact cmp_ne_gt.2 h

/-- **Numbers that do not clash are in order.** -/
theorem compare_number_trans (hclash : ¬ Clash values) (hain : a ∈ values) (hbin : b ∈ values)
    (hcin : c ∈ values) (ha : a.kind = 2) (hb : b.kind = 2) (hc : c.kind = 2)
    (hab : compare_sort_key (doubles of_datetime) a b ≠ .gt)
    (hbc : compare_sort_key (doubles of_datetime) b c ≠ .gt) :
    compare_sort_key (doubles of_datetime) a c ≠ .gt := by
  have hkab := number_key_le ha hb hab
  have hkbc := number_key_le hb hc hbc
  rcases number_of_kind ha with ⟨i, rfl⟩ | ⟨x, rfl⟩
  · rcases number_of_kind hc with ⟨j, rfl⟩ | ⟨z, rfl⟩
    · rcases number_of_kind hb with ⟨v, rfl⟩ | ⟨y, rfl⟩
      · exact cmp_le_trans (α := ℤ) hab hbc
      · -- if `j` were less than `i`, both would convert to `y`
        refine fun hgt => hclash ⟨i, j, y, hain, hcin, hbin, ?_, ?_, ?_⟩
        all_goals have hlt : j < i := (cmp_eq_gt_iff i j).1 hgt
        · omega
        all_goals
          have hmono := F64.key_of_int_mono hlt.le
          grind [FieldValue.number_key, F64.eq_of_key]
    · exact compare_of_number_key_le ha hc (Or.inr ⟨z, rfl⟩) (hkab.trans hkbc)
  · exact compare_of_number_key_le ha hc (Or.inl ⟨x, rfl⟩) (hkab.trans hkbc)

/-- **The comparator is transitive** on values that do not clash. -/
theorem compare_sort_key_trans (hclash : ¬ Clash values) (hain : a ∈ values) (hbin : b ∈ values)
    (hcin : c ∈ values) (hab : compare_sort_key (doubles of_datetime) a b ≠ .gt)
    (hbc : compare_sort_key (doubles of_datetime) b c ≠ .gt) :
    compare_sort_key (doubles of_datetime) a c ≠ .gt := by
  grind [kind_le, LE.le.trans, compare_of_kind_lt, compare_number_trans, compare_trans_of_kind]

/-! ## The laws -/

theorem eq_of_swap_eq {o : Ordering} (h : o.swap = o) : o = .eq := by
  rcases o with _ | _ | _
  · exact Ordering.noConfusion h
  · rfl
  · exact Ordering.noConfusion h

theorem transCmp_comap {α β : Type} {cmp : β → β → Ordering} (h : Std.TransCmp cmp) (f : α → β) :
    Std.TransCmp fun a b => cmp (f a) (f b) where
  eq_swap := h.eq_swap
  isLE_trans := h.isLE_trans

theorem transCmp_linear {α : Type} [LinearOrder α] : Std.TransCmp fun a b : α => cmp a b where
  eq_swap := (cmp_swap _ _).symm
  isLE_trans hab hbc := Ordering.isLE_iff_ne_gt.2
    (cmp_le_trans (Ordering.isLE_iff_ne_gt.1 hab) (Ordering.isLE_iff_ne_gt.1 hbc))

section Laws

variable {𝕜 : Type} (hclash : ¬ Clash values)
include hclash

theorem transCmp_values : Std.TransCmp fun a b : values =>
    compare_sort_key (doubles of_datetime) a b where
  eq_swap {a b} := (compare_sort_key_swap b.1 a.1).symm
  isLE_trans {a b c} hab hbc := Ordering.isLE_iff_ne_gt.2
    (compare_sort_key_trans hclash a.2 b.2 c.2 (Ordering.isLE_iff_ne_gt.1 hab)
      (Ordering.isLE_iff_ne_gt.1 hbc))

theorem transCmp_rank (ascending : Bool) :
    Std.TransCmp fun a b : {hit : FieldHit 𝕜 // hit.value ∈ values} =>
      a.1.rank (doubles of_datetime) ascending b.1 := by
  have hvalues := transCmp_comap (@transCmp_values of_datetime values hclash)
    fun hit : {hit : FieldHit 𝕜 // hit.value ∈ values} => ⟨hit.1.value, hit.2⟩
  have hids := transCmp_comap (transCmp_linear (α := ℕ))
    fun hit : {hit : FieldHit 𝕜 // hit.value ∈ values} => hit.1.doc_id
  rcases ascending with _ | _
  · have hopposite := hvalues.opposite
    have heq : (fun a b : {hit : FieldHit 𝕜 // hit.value ∈ values} =>
        a.1.rank (doubles of_datetime) false b.1) =
        compareLex (fun a b => compare_sort_key (doubles of_datetime) b.1.value a.1.value)
          fun a b => cmp a.1.doc_id b.1.doc_id := by
      grind [FieldHit.rank, compareLex, compare_sort_key_swap]
    rw [heq]
    infer_instance
  · exact inferInstanceAs (Std.TransCmp (compareLex
      (fun a b : {hit : FieldHit 𝕜 // hit.value ∈ values} =>
        compare_sort_key (doubles of_datetime) a.1.value b.1.value)
      fun a b => cmp a.1.doc_id b.1.doc_id))

/-- **The laws hold** of values that do not clash. -/
theorem SortKeyLaws.of_not_clash : SortKeyLaws 𝕜 (doubles of_datetime) values where
  antisymm a _ b _ := compare_sort_key_swap a b
  trans _ ha _ hb _ hc := compare_sort_key_trans hclash ha hb hc
  ties := by
    have htrans := @transCmp_values of_datetime values hclash
    refine ⟨fun a => eq_of_swap_eq (compare_sort_key_swap _ _), fun {a b} hab => ?_,
      fun hab hbc => htrans.eq_trans hab hbc⟩
    rw [← compare_sort_key_swap, hab]
    rfl
  strict ascending := by
    have htrans := @transCmp_rank of_datetime values 𝕜 hclash ascending
    refine { irrefl := fun a hlt => ?_, trans := fun a b c => htrans.lt_trans }
    rw [eq_of_swap_eq (FieldHit.rank_swap ascending a.1 a.1)] at hlt
    exact Ordering.noConfusion hlt
  total ascending a b _ _ hne := by
    rw [FieldHit.rank_lt_iff, FieldHit.rank_lt_iff, ← not_and_or]
    exact fun hboth => hne (FieldHit.before_antisymm hboth.2 hboth.1)
  top_k ascending limit hits hids hvalues := by
    have hord : OrderedOn (FieldHit.before (doubles of_datetime) ascending) hits :=
      FieldHit.orderedOn hids fun a ha b hb c hc hab hbc => by
        have htrans := @transCmp_rank of_datetime values 𝕜 hclash ascending
        exact Ordering.isLE_iff_ne_gt.1 (htrans.isLE_trans (a := ⟨a, hvalues a ha⟩)
          (b := ⟨b, hvalues b hb⟩) (c := ⟨c, hvalues c hc⟩) (Ordering.isLE_iff_ne_gt.2 hab)
          (Ordering.isLE_iff_ne_gt.2 hbc))
    exact (FieldTopK.foldl_push_firstK hord hids.of_map limit).unique hord
      (firstK_take_insertionSort hord hids.of_map limit)

end Laws

/-- **The comparator is fit for a sort** of exactly the values of which no two
integers convert to one of the doubles. -/
theorem compare_sort_key_laws (𝕜 : Type) (of_datetime : ℤ → F64) (values : Set FieldValue) :
    SortKeyLaws 𝕜 (doubles of_datetime) values ↔ ¬ Clash values := by
  refine ⟨fun hlaws => ?_, SortKeyLaws.of_not_clash⟩
  rintro ⟨i, j, x, hi, hj, hx, hne, hix, hjx⟩
  have htie : ∀ v, F64.of_int v = x →
      compare_sort_key (doubles of_datetime) (.int64 v) (.float64 x) = .eq := by
    rintro v rfl
    exact cmp_self_eq_eq _
  have hij := hlaws.ties.trans (x := ⟨_, hi⟩) (y := ⟨_, hx⟩) (z := ⟨_, hj⟩) (htie i hix)
    (hlaws.ties.symm (htie j hjx))
  exact hne ((cmp_eq_eq_iff i j).1 hij)

/-! ## Three values that clash -/

/-- Three documents: of `2 ^ 53`, of `2 ^ 53 + 1` and of the double of both. -/
def clashing_hits : FieldHit ℕ × FieldHit ℕ × FieldHit ℕ :=
  ({ doc_id := 3, score := 1, value := .int64 (2 ^ 53) },
    { doc_id := 1, score := 1, value := .int64 (2 ^ 53 + 1) },
    { doc_id := 2, score := 1, value := .float64 ⟨0x4340000000000000⟩ })

/-- What a heap of one keeps. -/
def kept_of (hits : List (FieldHit ℕ)) : List ℕ :=
  (hits.foldl (FieldTopK.push (doubles fun _ => ⟨0⟩)) (FieldTopK.new 1 true)).hits.map
    FieldHit.doc_id

/-- **Each of three documents comes before the next**, and which one a heap
keeps depends on the order in which it meets them. -/
theorem compare_sort_key_laws_counterexample :
    (clashing_hits.1.rank (doubles fun _ => ⟨0⟩) true clashing_hits.2.1 = .lt ∧
      clashing_hits.2.1.rank (doubles fun _ => ⟨0⟩) true clashing_hits.2.2 = .lt ∧
      clashing_hits.2.2.rank (doubles fun _ => ⟨0⟩) true clashing_hits.1 = .lt) ∧
    kept_of [clashing_hits.1, clashing_hits.2.1, clashing_hits.2.2] ≠
      kept_of [clashing_hits.2.2, clashing_hits.2.1, clashing_hits.1] ∧
    ¬ ∀ a b c : FieldValue, compare_sort_key (doubles fun _ => ⟨0⟩) a b = .eq →
      compare_sort_key (doubles fun _ => ⟨0⟩) b c = .eq →
      compare_sort_key (doubles fun _ => ⟨0⟩) a c = .eq := by
  refine ⟨by decide +kernel, by decide +kernel, fun h => ?_⟩
  have htie := h (.int64 (2 ^ 53)) (.float64 ⟨0x4340000000000000⟩) (.int64 (2 ^ 53 + 1))
    (by decide +kernel) (by decide +kernel)
  exact absurd htie (by decide +kernel)

end Laurus
