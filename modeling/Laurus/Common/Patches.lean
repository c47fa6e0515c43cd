import Mathlib.Data.List.Induction

/-!
# Patches of a map

A patch gives some keys a value and leaves the others. After several patches
in a row, a key has the value that the last one which gives it any does
(`settled`), whatever it had before.
-/

namespace Laurus

variable {ρ κ β : Type*} (value : ρ → κ → Option β)

/-- What the last patch that gives `k` a value gives it. -/
def settled (patches : List ρ) (k : κ) : Option β :=
  patches.foldl (fun found p => (value p k).or found) none

/-- A map after patches in a row. -/
def patched (patches : List ρ) (m : κ → β) : κ → β :=
  patches.foldl (fun m p k => (value p k).getD (m k)) m

variable {value} {l l' : List ρ} {p : ρ} {k : κ} {b : β} {m m' : κ → β}

theorem settled_nil : settled value [] k = none := rfl

theorem settled_concat : settled value (l ++ [p]) k = (value p k).or (settled value l k) := by
  rw [settled, List.foldl_append]
  rfl

theorem settled_append : settled value (l ++ l') k = (settled value l' k).or (settled value l k) := by
  induction l' using List.reverseRecOn with
  | nil => rw [List.append_nil, settled_nil, Option.none_or]
  | append_singleton l' p ih =>
      rw [← List.append_assoc, settled_concat, settled_concat, ih, Option.or_assoc]

/-- A key that no patch gives a value. -/
theorem settled_eq_none : settled value l k = none ↔ ∀ p ∈ l, value p k = none := by
  induction l using List.reverseRecOn with
  | nil => simp [settled_nil]
  | append_singleton l p ih =>
      rw [settled_concat, Option.or_eq_none_iff, ih, List.forall_mem_append,
        List.forall_mem_singleton, and_comm]

/-- **A key after patches** has the last value given, or what it had. -/
theorem patched_apply : patched value l m k = (settled value l k).getD (m k) := by
  induction l using List.reverseRecOn with
  | nil => rfl
  | append_singleton l p ih =>
      rw [patched, List.foldl_append, settled_concat]
      show (value p k).getD (patched value l m k) = _
      rcases value p k with _ | b
      · exact ih
      · rfl

theorem patched_append : patched value (l ++ l') m = patched value l' (patched value l m) :=
  List.foldl_append

/-- Maps that agree on the keys no patch gives a value agree after them. -/
theorem patched_congr (h : settled value l k = none → m k = m' k) :
    patched value l m k = patched value l m' k := by
  rw [patched_apply, patched_apply]
  rcases hs : settled value l k with _ | b
  · exact h hs
  · rfl

end Laurus
