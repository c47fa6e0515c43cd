import Laurus.Common.FirstSeen
import Laurus.Engine.Model.Grouping
import Mathlib.Data.List.Forall2

/-!
# Grouping of ranked hits

A hit is its position in the ranking. The positions fall into classes by
`GroupKey`, which tells apart just the values that are not the same
(`same_key_iff`); the groups are the first classes, each cut to its first
hits (`group_ranked_eq`). So a page asked for later begins with the pages
before it, whatever was needed then.
-/

namespace Laurus

namespace Grouping

open FirstSeen

/-! ## The key of a value -/

/-- Values that group together: scalars of one type that compare equal, NaNs
with NaNs, and times by the microsecond. -/
inductive SameValue : FieldValue → FieldValue → Prop
  | text (s : String) : SameValue (.text s) (.text s)
  | int64 (v : ℤ) : SameValue (.int64 v) (.int64 v)
  | float64 {x y : F64} (h : x.eq y = true ∨ x.is_nan = true ∧ y.is_nan = true) :
      SameValue (.float64 x) (.float64 y)
  | bool (b : Bool) : SameValue (.bool b) (.bool b)
  | datetime {s t : ℤ} (h : timestamp_micros s = timestamp_micros t) :
      SameValue (.datetime s) (.datetime t)

theorem F64_eq_iff {x y : F64} :
    x.eq y = true ↔ x.is_nan = false ∧ y.is_nan = false ∧ x.place = y.place := by
  simp [F64.eq, and_assoc]

theorem eq_of_place {x y : F64} (h : x.place = y.place) (hzero : x.place ≠ 0) : x = y := by
  grind [F64.eq_of_key, F64.place]

/-- The bits a double is grouped by. -/
def float_bits (x : F64) : UInt64 :=
  if x.eq ⟨0⟩ then 0 else if x.is_nan then F64.NAN.bits else x.bits

theorem float_bits_cases (x : F64) :
    (x.is_nan = false ∧ x.place = 0 ∧ float_bits x = 0) ∨
    (x.is_nan = true ∧ float_bits x = F64.NAN.bits) ∨
    (x.is_nan = false ∧ x.place ≠ 0 ∧ float_bits x = x.bits ∧ x.bits ≠ 0 ∧
      x.bits ≠ F64.NAN.bits) := by
  have hnan : (⟨0⟩ : F64).is_nan = false := rfl
  have hplace : (⟨0⟩ : F64).place = 0 := rfl
  unfold float_bits
  split
  · grind [F64_eq_iff]
  · rename_i hzero
    split
    · grind
    · rename_i hx
      have hx' := Bool.eq_false_iff.2 hx
      have hplace' : x.place ≠ 0 := fun h => hzero (F64_eq_iff.2 ⟨hx', hnan, h⟩)
      refine Or.inr (Or.inr ⟨hx', hplace', rfl, fun h => ?_, fun h => ?_⟩)
      · have hxz : x = ⟨0⟩ := congrArg F64.mk h
        exact hplace' (hxz ▸ hplace)
      · have hxN : x = F64.NAN := congrArg F64.mk h
        exact hx (hxN ▸ rfl)

theorem float_bits_inj {x y : F64} : float_bits x = float_bits y ↔
    x.eq y = true ∨ x.is_nan = true ∧ y.is_nan = true := by
  have hne : F64.NAN.bits ≠ 0 := by decide
  rw [F64_eq_iff]
  rcases float_bits_cases x with ⟨hx, hxp, hxb⟩ | ⟨hx, hxb⟩ | ⟨hx, hxp, hxb, hx0, hxN⟩ <;>
    rcases float_bits_cases y with ⟨hy, hyp, hyb⟩ | ⟨hy, hyb⟩ | ⟨hy, hyp, hyb, hy0, hyN⟩
  · simp [hx, hxp, hxb, hy, hyp, hyb]
  · simp [hx, hxb, hy, hyb, hne.symm]
  · grind
  · simp [hx, hxb, hy, hyb, hne]
  · simp [hx, hxb, hy, hyb]
  · simp [hx, hxb, hy, hyb, hyN.symm]
  · simp [hxp, hxb, hy, hyp, hyb, hx0]
  · simp [hx, hxb, hy, hyb, hxN]
  · -- two numbers that are not zero are at one place when they are one
    rw [hxb, hyb]
    constructor
    · intro h
      have hxy : x = y := congrArg F64.mk h
      exact Or.inl ⟨hx, hy, by rw [hxy]⟩
    grind [eq_of_place]

theorem key_cases {v : FieldValue} {key : GroupKey} (h : GroupKey.of v = some key) :
    (∃ s, v = .text s ∧ key = .Text s) ∨ (∃ n, v = .int64 n ∧ key = .Int n) ∨
    (∃ x, v = .float64 x ∧ key = .Float (float_bits x)) ∨ (∃ b, v = .bool b ∧ key = .Bool b) ∨
    ∃ t, v = .datetime t ∧ key = .DateTime (timestamp_micros t) := by
  rcases v <;> cases h
  · simp
  · exact Or.inr (Or.inl ⟨_, rfl, rfl⟩)
  · exact Or.inr (Or.inr (Or.inl ⟨_, rfl, rfl⟩))
  · exact Or.inl ⟨_, rfl, rfl⟩
  simp

/-- **Keys tell apart just what is not the same value.** -/
theorem same_key_iff {v w : FieldValue} :
    (∃ key, GroupKey.of v = some key ∧ GroupKey.of w = some key) ↔ SameValue v w := by
  constructor
  · rintro ⟨key, hv, hw⟩
    rcases key_cases hv with ⟨s, rfl, rfl⟩ | ⟨n, rfl, rfl⟩ | ⟨x, rfl, rfl⟩ | ⟨b, rfl, rfl⟩ |
      ⟨t, rfl, rfl⟩ <;>
      rcases key_cases hw with ⟨s', rfl, hk⟩ | ⟨n', rfl, hk⟩ | ⟨x', rfl, hk⟩ | ⟨b', rfl, hk⟩ |
        ⟨t', rfl, hk⟩ <;>
      simp only [GroupKey.Text.injEq, GroupKey.Int.injEq, GroupKey.Float.injEq,
        GroupKey.Bool.injEq, GroupKey.DateTime.injEq, reduceCtorEq] at hk
    · exact hk ▸ SameValue.text _
    · exact hk ▸ SameValue.int64 _
    · exact SameValue.float64 (float_bits_inj.1 hk)
    · exact hk ▸ SameValue.bool _
    · exact SameValue.datetime hk
  · rintro (s | v | h | b | h)
    · exact ⟨_, rfl, rfl⟩
    · exact ⟨_, rfl, rfl⟩
    · exact ⟨_, rfl, congrArg (fun bits => some (GroupKey.Float bits)) (float_bits_inj.2 h).symm⟩
    · exact ⟨_, rfl, rfl⟩
    · exact ⟨_, rfl, congrArg (fun micros => some (GroupKey.DateTime micros)) h.symm⟩

/-! ## The groups of a ranking -/

variable {𝕜 : Type} {ranked : List (ℕ × 𝕜)} {keys : Keys} {group_size needed : ℕ}

/-- The keys of the hits, by position. -/
def group_keys (keys : Keys) (ranked : List (ℕ × 𝕜)) : List (Option GroupKey) :=
  ranked.map fun hit => key_of keys hit.1

/-- The value that the group of a hit is reported with. -/
def shown_value (keys : Keys) (doc_id : ℕ) : Option FieldValue :=
  if (key_of keys doc_id).isSome then value_of keys doc_id else none

/-- The group that a position leads. -/
def group_at (ranked : List (ℕ × 𝕜)) (keys : Keys) (group_size l : ℕ) : Group 𝕜 where
  key := (ranked[l]?).bind fun hit => shown_value keys hit.1
  hits := ((members (group_keys keys ranked) l).take (max group_size 1)).filterMap (ranked[·]?)

/-- The leaders of the groups that are formed. -/
def leads (ranked : List (ℕ × 𝕜)) (keys : Keys) (needed : ℕ) : List ℕ :=
  (leaders (group_keys keys ranked)).take needed

theorem length_group_keys : (group_keys keys ranked).length = ranked.length := List.length_map _

theorem group_keys_concat {hit : ℕ × 𝕜} :
    group_keys keys (ranked ++ [hit]) = group_keys keys ranked ++ [key_of keys hit.1] :=
  List.map_append

theorem leads_lt {l : ℕ} (h : l ∈ leads ranked keys needed) : l < ranked.length := by
  rw [← @length_group_keys _ ranked keys]
  exact (mem_leaders.1 (List.mem_of_mem_take h)).1

theorem label_new {hit : ℕ × 𝕜} :
    label (group_keys keys (ranked ++ [hit])) ranked.length =
      (key_of keys hit.1).elim (.inr ranked.length) .inl := by
  rw [label, group_keys_concat, ← @length_group_keys _ ranked keys, List.getElem?_concat_length]
  rfl

theorem lookup_concat {hit : ℕ × 𝕜} {positions : List ℕ} (h : ∀ i ∈ positions, i < ranked.length) :
    positions.filterMap ((ranked ++ [hit])[·]?) = positions.filterMap (ranked[·]?) :=
  List.filterMap_congr fun i hi => List.getElem?_append_left (h i hi)

theorem length_lookup {positions : List ℕ} (h : ∀ i ∈ positions, i < ranked.length) :
    (positions.filterMap (ranked[·]?)).length = positions.length := by
  induction positions with
  | nil => rfl
  | cons i positions ih =>
      grind

theorem members_lt {l i : ℕ} (h : i ∈ members (group_keys keys ranked) l) : i < ranked.length := by
  rw [← @length_group_keys _ ranked keys]
  exact (mem_members.1 h).1

theorem members_concat_hit {hit : ℕ × 𝕜} {l : ℕ} (hl : l < ranked.length) :
    members (group_keys keys (ranked ++ [hit])) l = members (group_keys keys ranked) l ++
      if label (group_keys keys (ranked ++ [hit])) ranked.length =
        label (group_keys keys ranked) l then [ranked.length] else [] := by
  rw [group_keys_concat, members_concat (by rwa [length_group_keys]), length_group_keys]

theorem group_at_concat {hit : ℕ × 𝕜} {l : ℕ} (hl : l < ranked.length)
    (hne : label (group_keys keys (ranked ++ [hit])) ranked.length ≠
      label (group_keys keys ranked) l) :
    group_at (ranked ++ [hit]) keys group_size l = group_at ranked keys group_size l := by
  rw [group_at, group_at, members_concat_hit hl, if_neg hne, List.append_nil,
    List.getElem?_append_left hl, lookup_concat fun i hi => members_lt (List.mem_of_mem_take hi)]

theorem group_at_join {hit : ℕ × 𝕜} {l : ℕ} (hl : l ∈ leaders (group_keys keys ranked))
    (heq : label (group_keys keys (ranked ++ [hit])) ranked.length =
      label (group_keys keys ranked) l) :
    group_at (ranked ++ [hit]) keys group_size l =
      if (group_at ranked keys group_size l).hits.length < group_size then
        { group_at ranked keys group_size l with
          hits := (group_at ranked keys group_size l).hits ++ [hit] }
      else group_at ranked keys group_size l := by
  have hlt : l < ranked.length := by
    rw [← @length_group_keys _ ranked keys]
    exact (mem_leaders.1 hl).1
  have hold : ∀ i ∈ (members (group_keys keys ranked) l).take (max group_size 1),
      i < ranked.length := fun i hi => members_lt (List.mem_of_mem_take hi)
  have hpos : 0 < (members (group_keys keys ranked) l).length :=
    List.length_pos_of_mem (List.mem_of_mem_head? (head_members hl))
  have hlen : (group_at ranked keys group_size l).hits.length =
      min (max group_size 1) (members (group_keys keys ranked) l).length := by
    rw [group_at, length_lookup hold, List.length_take]
  rw [hlen]
  simp only [group_at]
  rw [members_concat_hit hlt, if_pos heq, List.getElem?_append_left hlt]
  split
  · -- the group is not full, so all its hits so far are in it
    rw [List.take_of_length_le (by grind),
      List.take_of_length_le (by omega), List.filterMap_append,
      lookup_concat fun i hi => members_lt hi]
    simp
  · rw [List.take_append_of_le_length (by omega), lookup_concat hold]

theorem group_at_new {hit : ℕ × 𝕜} (hfresh : ∀ j < ranked.length,
      label (group_keys keys ranked) j ≠
        label (group_keys keys (ranked ++ [hit])) ranked.length) :
    group_at (ranked ++ [hit]) keys group_size ranked.length =
      { key := shown_value keys hit.1, hits := [hit] } := by
  have hmembers : members (group_keys keys (ranked ++ [hit])) ranked.length =
      [ranked.length] := by
    grind [group_keys_concat, length_group_keys, members_concat_new]
  rw [group_at, hmembers, List.getElem?_concat_length, Option.bind_some,
    List.take_of_length_le (by rw [List.length_singleton]; omega)]
  simp

theorem leaders_concat_hit {hit : ℕ × 𝕜} :
    leaders (group_keys keys (ranked ++ [hit])) = leaders (group_keys keys ranked) ++
      if ∀ j < ranked.length, label (group_keys keys ranked) j ≠
        label (group_keys keys (ranked ++ [hit])) ranked.length then [ranked.length] else [] := by
  rw [group_keys_concat, leaders_concat]
  simp only [length_group_keys]

/-- **What the fold holds after some hits**: their groups, and an index of
those that have a key. -/
structure Holds (ranked : List (ℕ × 𝕜)) (keys : Keys) (group_size needed : ℕ) (f : Folded 𝕜) :
    Prop where
  groups : f.groups = (leads ranked keys needed).map (group_at ranked keys group_size)
  index : ∀ key i, f.index key = some i ↔ ∃ l, (leads ranked keys needed)[i]? = some l ∧
    label (group_keys keys ranked) l = .inl key

theorem label_concat_hit {hit : ℕ × 𝕜} {l : ℕ} (h : l < ranked.length) :
    label (group_keys keys (ranked ++ [hit])) l = label (group_keys keys ranked) l := by
  rw [group_keys_concat, label_concat (by rwa [length_group_keys])]

theorem Holds.fresh {f : Folded 𝕜} (h : Holds ranked keys group_size needed f) {hit : ℕ × 𝕜}
    (hnone : (key_of keys hit.1).bind f.index = none) {l : ℕ}
    (hl : l ∈ leads ranked keys needed) :
    label (group_keys keys (ranked ++ [hit])) ranked.length ≠ label (group_keys keys ranked) l := by
  rw [label_new]
  intro heq
  rcases hkey : key_of keys hit.1 with _ | key
  · rw [hkey, Option.elim_none] at heq
    have hlt := leads_lt hl
    have := eq_of_label_eq_inr heq.symm
    omega
  · rw [hkey, Option.elim_some] at heq
    rw [hkey, Option.bind_some] at hnone
    obtain ⟨i, hi⟩ := List.mem_iff_getElem?.1 hl
    rw [(h.index key i).2 ⟨l, hi, heq.symm⟩] at hnone
    cases hnone

theorem Holds.join {f : Folded 𝕜} (h : Holds ranked keys group_size needed f) {hit : ℕ × 𝕜}
    {key : GroupKey} {i : ℕ} (hkey : key_of keys hit.1 = some key) (hi : f.index key = some i) :
    Holds (ranked ++ [hit]) keys group_size needed (f.join group_size i hit) := by
  obtain ⟨l, hl, hlabel⟩ := (h.index key i).1 hi
  have hmem : l ∈ leads ranked keys needed := List.mem_of_getElem? hl
  have hnew : label (group_keys keys (ranked ++ [hit])) ranked.length =
      label (group_keys keys ranked) l := by
    rw [label_new, hkey, hlabel]
    rfl
  have hleads : leads (ranked ++ [hit]) keys needed = leads ranked keys needed := by
    rw [leads, leaders_concat_hit, if_neg, List.append_nil, leads]
    intro hfresh
    exact hfresh l (leads_lt hmem) hnew.symm
  refine ⟨?_, fun key' i' => ?_⟩
  · rw [Folded.join, h.groups, hleads]
    refine List.ext_getElem? fun p => ?_
    dsimp only
    rw [List.getElem?_modify, List.getElem?_map, List.getElem?_map]
    rcases hp : (leads ranked keys needed)[p]? with _ | l'
    · simp
    · have hmem' : l' ∈ leads ranked keys needed := List.mem_of_getElem? hp
      by_cases hip : i = p
      · subst hip
        obtain rfl := Option.some.inj (hl.symm.trans hp)
        simp only [Option.map_some, if_true]
        rw [group_at_join (List.mem_of_mem_take hmem) hnew]
        rfl
      · -- the leaders of two groups are of two classes
        have hne : l ≠ l' := by
          intro heq
          have hnodup : (leads ranked keys needed).Nodup :=
            (leaders_sorted.imp fun hlt => Nat.ne_of_lt hlt).sublist (List.take_sublist _ _)
          obtain ⟨hlt, hget⟩ := List.getElem?_eq_some_iff.1 hl
          obtain ⟨hlt', hget'⟩ := List.getElem?_eq_some_iff.1 hp
          exact hip ((hnodup.getElem_inj_iff).1 (hget.trans (heq.trans hget'.symm)))
        have hother : label (group_keys keys (ranked ++ [hit])) ranked.length ≠
            label (group_keys keys ranked) l' := fun heq =>
          hne (leader_inj (List.mem_of_mem_take hmem) (List.mem_of_mem_take hmem')
            (hnew.symm.trans heq))
        simp only [Option.map_some, if_neg hip]
        rw [group_at_concat (leads_lt hmem') hother]
        rfl
  · rw [hleads]
    refine (h.index key' i').trans (exists_congr fun l' => and_congr_right fun hl' => ?_)
    rw [label_concat_hit (leads_lt (List.mem_of_getElem? hl'))]

theorem Holds.full {f : Folded 𝕜} (h : Holds ranked keys group_size needed f) {hit : ℕ × 𝕜}
    (hnone : (key_of keys hit.1).bind f.index = none) (hfull : f.groups.length = needed) :
    Holds (ranked ++ [hit]) keys group_size needed f := by
  rw [h.groups, List.length_map, leads, List.length_take] at hfull
  have hleads : leads (ranked ++ [hit]) keys needed = leads ranked keys needed := by
    rw [leads, leaders_concat_hit, List.take_append_of_le_length (by omega), leads]
  refine ⟨?_, fun key i => ?_⟩
  · rw [h.groups, hleads]
    refine List.map_congr_left fun l hl => ?_
    rw [group_at_concat (leads_lt hl) (h.fresh hnone hl)]
  · rw [hleads]
    refine (h.index key i).trans (exists_congr fun l => and_congr_right fun hl => ?_)
    rw [label_concat_hit (leads_lt (List.mem_of_getElem? hl))]

theorem open_group_eq {f : Folded 𝕜} {hit : ℕ × 𝕜} :
    (f.open_group keys hit).groups =
        f.groups ++ [{ key := shown_value keys hit.1, hits := [hit] }] ∧
      ∀ key, (f.open_group keys hit).index key =
        if key_of keys hit.1 = some key then some f.groups.length else f.index key := by
  rw [Folded.open_group, shown_value]
  rcases key_of keys hit.1 with _ | key
  · exact ⟨rfl, fun key => rfl⟩
  grind

theorem Holds.open_group {f : Folded 𝕜} (h : Holds ranked keys group_size needed f) {hit : ℕ × 𝕜}
    (hnone : (key_of keys hit.1).bind f.index = none) (hroom : f.groups.length ≠ needed) :
    Holds (ranked ++ [hit]) keys group_size needed (f.open_group keys hit) := by
  have hlen : f.groups.length = (leads ranked keys needed).length := by
    rw [h.groups, List.length_map]
  rw [hlen, leads, List.length_take] at hroom
  have hall : leads ranked keys needed = leaders (group_keys keys ranked) :=
    List.take_of_length_le (by omega)
  -- every class so far has a group
  have hfresh : ∀ j < ranked.length, label (group_keys keys ranked) j ≠
      label (group_keys keys (ranked ++ [hit])) ranked.length := by
    grind [exists_leader, length_group_keys, fresh]
  have hleads : leads (ranked ++ [hit]) keys needed =
      leads ranked keys needed ++ [ranked.length] := by
    rw [hall, leads, leaders_concat_hit, if_pos hfresh, List.take_of_length_le]
    grind
  obtain ⟨hgroups, hindex⟩ := @open_group_eq _ keys f hit
  refine ⟨?_, fun key i => ?_⟩
  · rw [hgroups, hleads, List.map_append, List.map_singleton, group_at_new hfresh, h.groups]
    refine congrArg (· ++ _) (List.map_congr_left fun l hl => ?_)
    rw [group_at_concat (leads_lt hl) (h.fresh hnone hl)]
  · rw [hindex, hleads]
    have hold : ∀ l, (leads ranked keys needed)[i]? = some l →
        (label (group_keys keys (ranked ++ [hit])) l = .inl key ↔
          label (group_keys keys ranked) l = .inl key) := fun l hl => by
      rw [label_concat_hit (leads_lt (List.mem_of_getElem? hl))]
    split
    · rename_i hkey
      constructor
      · grind [label_new]
      · rintro ⟨l, hl, hlabel⟩
        by_cases hi : i < (leads ranked keys needed).length
        · grind [index]
        grind
    · rename_i hkey
      rw [h.index]
      constructor
      · grind
      · rintro ⟨l, hl, hlabel⟩
        by_cases hi : i < (leads ranked keys needed).length
        · grind
        · have hle := (List.getElem?_eq_some_iff.1 hl).1
          rw [List.length_append, List.length_singleton] at hle
          rw [show i = (leads ranked keys needed).length by omega,
            List.getElem?_concat_length] at hl
          obtain rfl := Option.some.inj hl
          rw [label_new] at hlabel
          rcases hother : key_of keys hit.1 with _ | key'
          · grind
          grind

theorem leads_nil : leads ([] : List (ℕ × 𝕜)) keys needed = [] := List.take_nil

/-- **The fold holds the groups of the hits so far.** -/
theorem holds_foldl (ranked : List (ℕ × 𝕜)) (keys : Keys) (group_size needed : ℕ) :
    Holds ranked keys group_size needed
      (ranked.foldl (fold_hit keys group_size needed) { groups := [], index := fun _ => none }) := by
  induction ranked using List.reverseRecOn with
  | nil =>
      refine ⟨by rw [leads_nil]; rfl, fun key i => ?_⟩
      rw [leads_nil]
      simp
  | append_singleton ranked hit ih =>
      rw [List.foldl_append, List.foldl_cons, List.foldl_nil]
      set f := ranked.foldl (fold_hit keys group_size needed)
        { groups := [], index := fun _ => none } with hf
      rw [fold_hit]
      rcases hfound : (key_of keys hit.1).bind f.index with _ | i
      · grind [Holds.full, Holds.open_group]
      grind [Option.bind_eq_some_iff, Holds.join]

/-- **The groups are those of the first classes.** -/
theorem group_ranked_eq (ranked : List (ℕ × 𝕜)) (keys : Keys) (group_size needed : ℕ) :
    group_ranked ranked keys group_size needed =
      (leads ranked keys needed).map (group_at ranked keys group_size) :=
  (holds_foldl ranked keys group_size needed).groups

/-! ## What the groups are -/

/-- Hits that group together: one hit, or hits of one value. -/
def Together (ranked : List (ℕ × 𝕜)) (keys : Keys) (i j : ℕ) : Prop :=
  i = j ∨ ∃ (a b : ℕ × 𝕜) (v w : FieldValue), ranked[i]? = some a ∧ ranked[j]? = some b ∧
    value_of keys a.1 = some v ∧ value_of keys b.1 = some w ∧ SameValue v w

theorem label_eq_iff {i j : ℕ} :
    label (group_keys keys ranked) i = label (group_keys keys ranked) j ↔
      Together ranked keys i j := by
  have hkey : ∀ m key, label (group_keys keys ranked) m = .inl key ↔
      ∃ (a : ℕ × 𝕜) (v : FieldValue), ranked[m]? = some a ∧ value_of keys a.1 = some v ∧
        GroupKey.of v = some key := by
    intro m key
    rw [label_eq_inl, group_keys, List.getElem?_map]
    simp [Option.bind_eq_some_iff, key_of]
  constructor
  · intro h
    rcases hi : label (group_keys keys ranked) i with key | n
    · obtain ⟨a, v, ha, hv, hof⟩ := (hkey i key).1 hi
      obtain ⟨b, w, hb, hw, hof'⟩ := (hkey j key).1 (h ▸ hi)
      exact Or.inr ⟨a, b, v, w, ha, hb, hv, hw, same_key_iff.1 ⟨key, hof, hof'⟩⟩
    · exact Or.inl ((eq_of_label_eq_inr hi).trans (eq_of_label_eq_inr (h ▸ hi)).symm)
  · rintro (rfl | ⟨a, b, v, w, ha, hb, hv, hw, hsame⟩)
    · rfl
    · obtain ⟨key, hof, hof'⟩ := same_key_iff.2 hsame
      rw [(hkey i key).2 ⟨a, v, ha, hv, hof⟩, (hkey j key).2 ⟨b, w, hb, hw, hof'⟩]

/-- A group, led by the hit at `lead` and with the hits at `positions`: the
first of those that group with the lead, `size` of them at most. -/
structure IsGroup (ranked : List (ℕ × 𝕜)) (keys : Keys) (size lead : ℕ) (positions : List ℕ)
    (group : Group 𝕜) : Prop where
  hits : group.hits = positions.filterMap (ranked[·]?)
  key : ∀ hit, ranked[lead]? = some hit → ∀ v, group.key = some v ↔
    value_of keys hit.1 = some v ∧ SameValue v v
  head : positions.head? = some lead
  order : positions.Pairwise (· < ·)
  together : ∀ i ∈ positions, i < ranked.length ∧ Together ranked keys i lead
  room : positions.length ≤ size
  /-- A hit is left out only for as many before it. -/
  first : ∀ i < ranked.length, Together ranked keys i lead → i ∉ positions →
    positions.length = size ∧ ∀ p ∈ positions, p < i

/-- The positions of a group's hits. -/
def positions (ranked : List (ℕ × 𝕜)) (keys : Keys) (group_size l : ℕ) : List ℕ :=
  (members (group_keys keys ranked) l).take (max group_size 1)

theorem group_at_isGroup {l : ℕ} (hl : l ∈ leaders (group_keys keys ranked)) :
    IsGroup ranked keys (max group_size 1) l (positions ranked keys group_size l)
      (group_at ranked keys group_size l) := by
  have hsorted := @members_sorted _ _ (group_keys keys ranked) l
  have hsplit := List.take_append_drop (max group_size 1) (members (group_keys keys ranked) l)
  refine ⟨rfl, fun hit hhit v => ?_, ?_, hsorted.sublist (List.take_sublist _ _),
    fun i hi => ?_, ?_, fun i hi htogether hnot => ?_⟩
  · rw [group_at, hhit, Option.bind_some, shown_value, key_of]
    rcases value_of keys hit.1 with _ | w
    · simp
    · rw [Option.bind_some]
      have hsame : (GroupKey.of w).isSome ↔ SameValue w w := by
        rw [← same_key_iff, Option.isSome_iff_exists]
        simp
      by_cases hw : SameValue w w
      · rw [if_pos (hsame.2 hw)]
        constructor
        · grind
        · exact And.left
      grind
  · rw [positions, List.head?_take, if_neg (by omega), head_members hl]
  · have hmem := List.mem_of_mem_take hi
    exact ⟨members_lt hmem, label_eq_iff.1 (mem_members.1 hmem).2⟩
  · rw [positions, List.length_take]
    omega
  · have hmem : i ∈ members (group_keys keys ranked) l :=
      mem_members.2 ⟨by rwa [length_group_keys], label_eq_iff.2 htogether⟩
    grind [positions]

/-- **Grouping.** The groups are led by the first hits of their classes, as
many as needed and in their order; each has the first hits of its class, none
is in two, and a smaller need has the same groups as far as it goes. A size
of 0, which is refused as a request, is taken for 1. -/
theorem group_ranked_spec (ranked : List (ℕ × 𝕜)) (keys : Keys) (group_size needed : ℕ) :
    ∃ (leads : List ℕ) (positions : ℕ → List ℕ),
      List.Forall₂ (fun lead group =>
          IsGroup ranked keys (max group_size 1) lead (positions lead) group)
        leads (group_ranked ranked keys group_size needed) ∧
      leads.Pairwise (· < ·) ∧ leads.length ≤ needed ∧
      leads.Pairwise (fun l l' => (positions l).Disjoint (positions l')) ∧
      (∀ i < ranked.length, (∃ l ∈ leads, Together ranked keys l i) ∨
        leads.length = needed ∧ ∀ l ∈ leads, l < i) ∧
      ∀ fewer ≤ needed, group_ranked ranked keys group_size fewer =
        (group_ranked ranked keys group_size needed).take fewer := by
  have hsplit := List.take_append_drop needed (leaders (group_keys keys ranked))
  have hsorted := @leaders_sorted _ _ (group_keys keys ranked)
  refine ⟨leads ranked keys needed, positions ranked keys group_size, ?_,
    hsorted.sublist (List.take_sublist _ _), ?_, ?_, fun i hi => ?_, fun fewer hfewer => ?_⟩
  · rw [group_ranked_eq, List.forall₂_map_right_iff, List.forall₂_same]
    exact fun l hl => group_at_isGroup (List.mem_of_mem_take hl)
  · rw [leads, List.length_take]
    omega
  · refine List.Pairwise.imp_of_mem (fun {l l'} hl hl' hlt => ?_)
      (hsorted.sublist (List.take_sublist needed _))
    exact fun m hm hm' => members_disjoint (List.mem_of_mem_take hl) (List.mem_of_mem_take hl')
      (Nat.ne_of_lt hlt) (List.mem_of_mem_take hm) (List.mem_of_mem_take hm')
  · obtain ⟨l, hl, hle, hlabel⟩ := exists_leader (by rwa [length_group_keys] :
      i < (group_keys keys ranked).length)
    by_cases hlead : l ∈ leads ranked keys needed
    · exact Or.inl ⟨l, hlead, label_eq_iff.1 hlabel⟩
    · rw [← hsplit] at hl hsorted
      have hdrop := (List.mem_append.1 hl).resolve_left hlead
      rw [List.pairwise_append] at hsorted
      refine Or.inr ⟨?_, fun l' hl' => ?_⟩
      · have hpos := List.length_pos_of_mem hdrop
        rw [List.length_drop] at hpos
        rw [leads, List.length_take]
        omega
      · have := hsorted.2.2 l' hl' l hdrop
        omega
  · rw [group_ranked_eq, group_ranked_eq, ← List.map_take, leads, leads, List.take_take,
      Nat.min_eq_left hfewer]

/-- A size of 0 leaves a group its best hit. -/
theorem group_ranked_size_zero_counterexample :
    (group_ranked [(7, ())] (fun _ => none) 0 1).map Group.hits = [[(7, ())]] := rfl

/-! ## The rounds -/

/-- **A round asks for more than the one before**, within the bound. -/
theorem next_request_lt {fetch_count next : ℕ} (hpos : 0 < fetch_count)
    (h : next_request fetch_count = some next) : fetch_count < next ∧ next ≤ MAX_CANDIDATES := by
  unfold next_request MAX_CANDIDATES usize_saturate at h
  unfold MAX_CANDIDATES
  grind

theorem first_request_bounds (needed group_size : ℕ) :
    0 < first_request needed group_size ∧ first_request needed group_size ≤ MAX_CANDIDATES := by
  unfold first_request MAX_CANDIDATES
  omega

end Grouping

end Laurus
