import Mathlib.Algebra.BigOperators.Group.Finset.Basic
import Mathlib.Algebra.GroupWithZero.Nat
import Mathlib.Data.Finset.Sort
import Mathlib.Data.List.Perm.Basic
import Mathlib.Order.Interval.Finset.Nat

/-!
# Holders of disjoint sets

A list of holders, each with a set of keys, no two sets with a key in common.
A key then has one owner at most, and what a search through the holders finds
for a key is what its owner gives, in whatever way the search goes.
-/

namespace Laurus

variable {S κ β : Type*} [DecidableEq κ] (live : S → Finset κ) (holders : List S)

/-- No two holders have a key in common. -/
def Apart : Prop := holders.Pairwise fun s s' => Disjoint (live s) (live s')

/-- The holder of a key. -/
def owner (k : κ) : Option S := holders.find? fun s => decide (k ∈ live s)

/-- The keys of all holders. -/
def owned : Finset κ := holders.foldr (fun s keys => live s ∪ keys) ∅

variable {live holders} {k : κ} {s : S}

theorem owner_cons_of_mem (h : k ∈ live s) : owner live (s :: holders) k = some s :=
  List.find?_cons_of_pos (by simpa using h)

theorem owner_cons_of_notMem (h : k ∉ live s) :
    owner live (s :: holders) k = owner live holders k :=
  List.find?_cons_of_neg (by simpa using h)

theorem owner_mem (h : owner live holders k = some s) : s ∈ holders :=
  List.mem_of_find?_eq_some h

theorem owner_live (h : owner live holders k = some s) : k ∈ live s := by
  have := List.find?_some h
  simpa using this

theorem owner_eq_none : owner live holders k = none ↔ ∀ s ∈ holders, k ∉ live s := by
  rw [owner, List.find?_eq_none]
  simp

theorem mem_owned : k ∈ owned live holders ↔ ∃ s ∈ holders, k ∈ live s := by
  induction holders with
  | nil => simp [owned]
  | cons s holders ih =>
      rw [owned, List.foldr_cons, Finset.mem_union, List.exists_mem_cons_iff]
      exact or_congr_right ih

theorem owner_isSome : (owner live holders k).isSome ↔ k ∈ owned live holders := by
  grind [mem_owned, Option.not_isSome_iff_eq_none, owner_eq_none]

namespace Apart

omit [DecidableEq κ] in
theorem notMem_of_cons (h : Apart live (s :: holders)) (hk : k ∈ live s) :
    ∀ s' ∈ holders, k ∉ live s' := fun s' hs' hk' =>
  Finset.disjoint_left.1 ((List.pairwise_cons.1 h).1 s' hs') hk hk'

omit [DecidableEq κ] in
theorem tail (h : Apart live (s :: holders)) : Apart live holders := (List.pairwise_cons.1 h).2

theorem owner_eq (h : Apart live holders) (hs : s ∈ holders) (hk : k ∈ live s) :
    owner live holders k = some s := by
  induction holders with
  | nil => cases hs
  | cons first holders ih =>
      grind [owner_cons_of_mem, owner_cons_of_notMem, notMem_of_cons, tail]

/-- **The first answer is the owner's**, where only the owner answers. -/
theorem findSome_eq (h : Apart live holders) {answer : S → Option β}
    (hanswer : ∀ s ∈ holders, (answer s).isSome → k ∈ live s) :
    holders.findSome? answer = (owner live holders k).bind answer := by
  induction holders with
  | nil => rfl
  | cons s holders ih =>
      have hrest := ih h.tail fun s' hs' => hanswer s' (List.mem_cons_of_mem s hs')
      grind [owner_cons_of_mem, owner_eq_none, notMem_of_cons, owner_cons_of_notMem]

/-- **What all holders have of a key is what the owner has.** -/
theorem filter_flatMap_eq (h : Apart live holders) {items : S → List β} {key : β → κ}
    (hitems : ∀ s ∈ holders, ∀ b ∈ items s, key b ∈ live s) :
    (holders.flatMap items).filter (fun b => key b = k) =
      (owner live holders k).elim [] fun s => (items s).filter fun b => key b = k := by
  induction holders with
  | nil => rfl
  | cons s holders ih =>
      have hrest := ih h.tail fun s' hs' => hitems s' (List.mem_cons_of_mem s hs')
      rw [List.flatMap_cons, List.filter_append, hrest]
      by_cases hk : k ∈ live s
      · rw [owner_cons_of_mem hk, owner_eq_none.2 (h.notMem_of_cons hk)]
        exact List.append_nil _
      grind [List.filter_eq_nil_iff, owner_cons_of_notMem]

theorem card_owned (h : Apart live holders) :
    (owned live holders).card = (holders.map fun s => (live s).card).sum := by
  induction holders with
  | nil => rfl
  | cons s holders ih =>
      have hdisjoint : Disjoint (live s) (owned live holders) := by
        grind [Finset.disjoint_left, mem_owned, notMem_of_cons]
      rw [List.map_cons, List.sum_cons, ← ih h.tail]
      exact Finset.card_union_of_disjoint hdisjoint

end Apart

end Laurus
