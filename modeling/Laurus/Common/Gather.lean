import Mathlib.Algebra.Order.Group.Defs
import Mathlib.Data.List.AList
import Mathlib.Data.List.MinMax

/-!
# Gathering values by key

`gather_into step` adds pairs to a map: the value of a key becomes what
`step` makes of the one there and of the new one. What a key has in the end
is what `step` makes of its own values, in order (`lookup_gather`): the
greatest of them, or their sum.
-/

namespace Laurus

variable {κ α β : Type} [DecidableEq κ]

/-- The pairs added to `m`, one after the other. -/
def gather_into (step : Option β → α → β) (m : AList fun _ : κ => β) (pairs : List (κ × α)) :
    AList fun _ : κ => β :=
  pairs.foldl (fun m pair => m.insert pair.1 (step (m.lookup pair.1) pair.2)) m

/-- The values of a key. -/
def values_of (pairs : List (κ × α)) (k : κ) : List α :=
  (pairs.filter fun pair => pair.1 = k).map fun pair => pair.2

/-- What `step` makes of values, one after the other. -/
def gather_values (step : Option β → α → β) (acc : Option β) (values : List α) : Option β :=
  values.foldl (fun acc v => some (step acc v)) acc

variable {step : Option β → α → β} {m : AList fun _ : κ => β} {pairs : List (κ × α)} {k : κ}

theorem values_of_cons (pair : κ × α) (pairs : List (κ × α)) (k : κ) :
    values_of (pair :: pairs) k =
      if pair.1 = k then pair.2 :: values_of pairs k else values_of pairs k := by
  rw [values_of, List.filter_cons]
  split
  · rename_i h
    rw [decide_eq_true_eq] at h
    rw [if_pos h, List.map_cons, values_of]
  · rename_i h
    rw [decide_eq_true_eq] at h
    rw [if_neg h, values_of]

theorem mem_values_of {v : α} : v ∈ values_of pairs k ↔ (k, v) ∈ pairs := by
  simp only [values_of, List.mem_map, List.mem_filter, decide_eq_true_eq]
  simp

/-- **A key has what `step` makes of its own values.** -/
theorem lookup_gather_into :
    (gather_into step m pairs).lookup k = gather_values step (m.lookup k) (values_of pairs k) := by
  induction pairs generalizing m with
  | nil => rfl
  | cons pair pairs ih =>
      rw [gather_into, List.foldl_cons, ← gather_into, ih, values_of_cons]
      by_cases h : pair.1 = k
      · rw [if_pos h, ← h, AList.lookup_insert]
        rfl
      · rw [if_neg h, AList.lookup_insert_ne (Ne.symm h)]

theorem exists_gather_values {values : List α} (h : values ≠ []) (acc : Option β) :
    ∃ found, gather_values step acc values = some found := by
  induction values generalizing acc with
  | nil => exact absurd rfl h
  | cons v values ih =>
      rcases values with _ | ⟨w, values⟩
      · exact ⟨step acc v, rfl⟩
      · exact ih (List.cons_ne_nil w values) (some (step acc v))

theorem gather_into_flatMap {γ : Type} (xs : List γ) (f : γ → List (κ × α))
    (m : AList fun _ : κ => β) :
    xs.foldl (fun m x => gather_into step m (f x)) m = gather_into step m (xs.flatMap f) := by
  induction xs generalizing m with
  | nil => rfl
  | cons x xs ih =>
      rw [List.foldl_cons, ih, List.flatMap_cons, gather_into, gather_into, gather_into,
        List.foldl_append]

theorem values_of_flatMap {γ : Type} (xs : List γ) (f : γ → List (κ × α)) (k : κ) :
    values_of (xs.flatMap f) k = xs.flatMap fun x => values_of (f x) k := by
  rw [values_of, List.filter_flatMap, List.map_flatMap]
  rfl

theorem values_of_eq_singleton {v : α} (hkeys : (pairs.map Prod.fst).Nodup)
    (hmem : (k, v) ∈ pairs) : values_of pairs k = [v] := by
  -- two values of the key would be one pair twice
  have hnodup : (values_of pairs k).Nodup :=
    (((List.Nodup.of_map Prod.fst hkeys).filter _).map_on fun a ha b hb hab => by grind)
  rw [← List.perm_singleton]
  grind [List.perm_ext_iff_of_nodup, mem_values_of, List.inj_on_of_nodup_map]

theorem values_of_entries {entries : List (κ × β)}
    (hperm : entries.Perm (m.entries.map fun e => (e.1, e.2))) (k : κ) :
    values_of entries k = (m.lookup k).toList := by
  have hmem : ∀ v, (k, v) ∈ entries ↔ m.lookup k = some v := by
    intro v
    rw [hperm.mem_iff, ← Option.mem_def, AList.mem_lookup_iff, List.mem_map]
    simp
  have hkeys : (entries.map Prod.fst).Nodup := by
    rw [(hperm.map Prod.fst).nodup_iff, List.map_map]
    exact m.nodupKeys
  rcases hl : m.lookup k with _ | v
  · rw [Option.toList_none, List.eq_nil_iff_forall_not_mem]
    grind [mem_values_of]
  · exact values_of_eq_singleton hkeys ((hmem v).2 hl)

/-! ## The greatest value, and the sum -/

section Order

variable [LinearOrder β] {values : List β} {v : β}

/-- The greater of two, of the first where there is no other. -/
def keep_greater (acc : Option β) (v : β) : β := acc.elim v fun best => if best < v then v else best

theorem keep_greater_some (best v : β) : keep_greater (some best) v = max best v := by
  rw [keep_greater, Option.elim_some, max_def]
  grind

theorem gather_values_some (best : β) (values : List β) :
    gather_values keep_greater (some best) values = some (values.foldl max best) := by
  induction values generalizing best with
  | nil => rfl
  | cons v values ih =>
      rw [gather_values, List.foldl_cons, keep_greater_some, ← gather_values, ih]
      rfl

/-- **What is kept is the greatest value.** -/
theorem gather_values_keep_greater (values : List β) :
    gather_values keep_greater none values = values.max? := by
  rcases values with _ | ⟨v, values⟩
  · rfl
  · rw [List.max?_cons', ← gather_values_some]
    rfl

theorem max?_values_of {pairs : List (κ × β)} (hkeys : (pairs.map Prod.fst).Nodup) :
    (values_of pairs k).max? = some v ↔ (k, v) ∈ pairs := by
  constructor
  · intro h
    exact mem_values_of.1 (List.max?_mem h)
  · intro h
    rw [values_of_eq_singleton hkeys h, List.max?_singleton]

end Order

theorem gather_values_add [AddMonoid β] (values : List β) :
    gather_values (fun acc v => acc.getD 0 + v) none values =
      if values = [] then none else some values.sum := by
  have hfrom : ∀ (values : List β) (total : β),
      gather_values (fun acc v => acc.getD 0 + v) (some total) values = some (total + values.sum) := by
    intro values
    induction values with
    | nil => intro total; rw [List.sum_nil, add_zero]; rfl
    | cons v values ih =>
        grind [gather_values]
  rcases values with _ | ⟨v, values⟩
  · rfl
  · rw [gather_values, List.foldl_cons, ← gather_values, Option.getD_none, zero_add, hfrom,
      if_neg (List.cons_ne_nil _ _), List.sum_cons]

theorem gather_values_max_zero [LinearOrder β] [Zero β] (values : List β) :
    gather_values (fun acc v => if acc.getD 0 < v then v else acc.getD 0) none values =
      if values = [] then none else some (values.foldl max 0) := by
  have hstep : ∀ acc : Option β, ∀ v,
      (if acc.getD 0 < v then v else acc.getD 0) = max (acc.getD 0) v := by grind
  have hfrom : ∀ (values : List β) (best : β),
      gather_values (fun acc v => if acc.getD 0 < v then v else acc.getD 0) (some best) values =
        some (values.foldl max best) := by
    intro values
    induction values with
    | nil => exact fun best => rfl
    | cons v values ih =>
        grind [gather_values]
  rcases values with _ | ⟨v, values⟩
  · rfl
  · rw [gather_values, List.foldl_cons, ← gather_values, hstep, hfrom, if_neg (List.cons_ne_nil _ _)]
    rfl

end Laurus
