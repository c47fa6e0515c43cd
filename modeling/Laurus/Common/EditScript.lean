import Mathlib.Data.List.Basic
import Mathlib.Order.Lattice.Nat

/-!
# Edit scripts, and the distance

A `Script` turns one list into another from left to right, each member edited
once at most; `swaps` says whether two neighbours may be exchanged. `distance`
is the cost of the cheapest, and satisfies the recurrence that a table of it
is filled by (`distance_cons_cons`, `distance_swap`). Without swaps it is the
least number of single edits one after another, anywhere in the list
(`isLeast_edits`).
-/

namespace Laurus

namespace EditScript

variable {α : Type} {swaps : Bool} {x y : α} {xs ys zs xs' ys' : List α} {m n : ℕ}

/-- A script of so many edits. -/
inductive Script (swaps : Bool) : List α → List α → ℕ → Prop
  | nil : Script swaps [] [] 0
  /-- A member stays. -/
  | keep {x : α} {xs ys : List α} {n : ℕ} :
      Script swaps xs ys n → Script swaps (x :: xs) (x :: ys) n
  /-- A member becomes another. -/
  | substitute {x y : α} {xs ys : List α} {n : ℕ} :
      Script swaps xs ys n → Script swaps (x :: xs) (y :: ys) (n + 1)
  /-- A member goes. -/
  | delete {x : α} {xs ys : List α} {n : ℕ} :
      Script swaps xs ys n → Script swaps (x :: xs) ys (n + 1)
  /-- A member comes. -/
  | insert {y : α} {xs ys : List α} {n : ℕ} :
      Script swaps xs ys n → Script swaps xs (y :: ys) (n + 1)
  /-- Two neighbours are exchanged, and neither is edited again. -/
  | swap {x y : α} {xs ys : List α} {n : ℕ} : swaps = true →
      Script swaps xs ys n → Script swaps (x :: y :: xs) (y :: x :: ys) (n + 1)

namespace Script

theorem refl (xs : List α) : Script swaps xs xs 0 := by
  induction xs with
  | nil => exact nil
  | cons x xs ih => exact keep ih

/-- Everything goes. -/
theorem delete_all (xs : List α) : Script swaps xs [] xs.length := by
  induction xs with
  | nil => exact nil
  | cons x xs ih => exact delete ih

theorem insert_all (ys : List α) : Script swaps [] ys ys.length := by
  induction ys with
  | nil => exact nil
  | cons y ys ih => exact insert ih

theorem append (h : Script swaps xs ys m) (h' : Script swaps xs' ys' n) :
    Script swaps (xs ++ xs') (ys ++ ys') (m + n) := by
  induction h with
  | nil =>
      rw [Nat.zero_add]
      exact h'
  | keep _ ih => exact keep ih
  | substitute _ ih =>
      rw [Nat.succ_add]
      exact substitute ih
  | delete _ ih =>
      rw [Nat.succ_add]
      exact delete ih
  | insert _ ih =>
      rw [Nat.succ_add]
      exact insert ih
  | swap hswaps _ ih =>
      rw [Nat.succ_add]
      exact swap hswaps ih

theorem reverse (h : Script swaps xs ys n) : Script swaps xs.reverse ys.reverse n := by
  induction h with
  | nil => exact nil
  | @keep x xs ys n _ ih =>
      rw [List.reverse_cons, List.reverse_cons]
      exact ih.append (refl [x])
  | @substitute x y xs ys n _ ih =>
      rw [List.reverse_cons, List.reverse_cons]
      exact ih.append (substitute nil)
  | @delete x xs ys n _ ih =>
      have hlast := ih.append (delete_all [x])
      grind
  | @insert y xs ys n _ ih =>
      have hlast := ih.append (insert_all [y])
      grind
  | @swap x y xs ys n hswaps _ ih =>
      rw [List.reverse_cons, List.reverse_cons, List.append_assoc, List.reverse_cons,
        List.reverse_cons, List.append_assoc]
      exact ih.append (swap hswaps nil)

theorem length_le (h : Script swaps xs ys n) :
    xs.length ≤ ys.length + n ∧ ys.length ≤ xs.length + n := by
  induction h with
  | nil => exact ⟨le_rfl, le_rfl⟩
  | _ => simp only [List.length_cons]; omega

end Script

/-! ## The distance -/

/-- The cost of the cheapest script. -/
noncomputable def distance (swaps : Bool) (xs ys : List α) : ℕ := sInf {n | Script swaps xs ys n}

theorem script_distance (swaps : Bool) (xs ys : List α) :
    Script swaps xs ys (distance swaps xs ys) := by
  have hscript : Script swaps (xs ++ []) ([] ++ ys) (xs.length + ys.length) :=
    (Script.delete_all xs).append (Script.insert_all ys)
  rw [List.append_nil] at hscript
  exact Nat.sInf_mem ⟨_, hscript⟩

theorem distance_le (h : Script swaps xs ys n) : distance swaps xs ys ≤ n := Nat.sInf_le h

theorem isLeast_distance (swaps : Bool) (xs ys : List α) :
    IsLeast {n | Script swaps xs ys n} (distance swaps xs ys) :=
  ⟨script_distance swaps xs ys, fun _ h => distance_le h⟩

theorem distance_reverse (swaps : Bool) (xs ys : List α) :
    distance swaps xs.reverse ys.reverse = distance swaps xs ys := by
  refine le_antisymm (distance_le (script_distance swaps xs ys).reverse) (distance_le ?_)
  have hback := (script_distance swaps xs.reverse ys.reverse).reverse
  grind

@[simp] theorem distance_nil_left (swaps : Bool) (ys : List α) :
    distance swaps [] ys = ys.length := by
  refine le_antisymm (distance_le (Script.insert_all ys)) ?_
  simpa using (script_distance swaps [] ys).length_le.2

@[simp] theorem distance_nil_right (swaps : Bool) (xs : List α) :
    distance swaps xs [] = xs.length := by
  refine le_antisymm (distance_le (Script.delete_all xs)) ?_
  simpa using (script_distance swaps xs []).length_le.1

theorem distance_cons_left_le (swaps : Bool) (x : α) (xs ys : List α) :
    distance swaps (x :: xs) ys ≤ distance swaps xs ys + 1 :=
  distance_le (Script.delete (script_distance swaps xs ys))

theorem distance_cons_right_le (swaps : Bool) (xs : List α) (y : α) (ys : List α) :
    distance swaps xs (y :: ys) ≤ distance swaps xs ys + 1 :=
  distance_le (Script.insert (script_distance swaps xs ys))

section Recurrence

variable [DecidableEq α]

/-- What a member costs that becomes another. -/
def cost (x y : α) : ℕ := if x = y then 0 else 1

theorem distance_cons_cons_le (swaps : Bool) (x y : α) (xs ys : List α) :
    distance swaps (x :: xs) (y :: ys) ≤ distance swaps xs ys + cost x y := by
  rw [cost]
  split
  · rename_i heq
    subst heq
    exact distance_le (Script.keep (script_distance swaps xs ys))
  · exact distance_le (Script.substitute (script_distance swaps xs ys))

theorem distance_swap_le (x y : α) (xs ys : List α) :
    distance true (x :: y :: xs) (y :: x :: ys) ≤ distance true xs ys + cost x y := by
  rw [cost]
  split
  · rename_i heq
    subst heq
    exact distance_le (Script.keep (Script.keep (script_distance true xs ys)))
  · exact distance_le (Script.swap rfl (script_distance true xs ys))

theorem Script.cons_cons (h : Script swaps (x :: xs) (y :: ys) n) :
    distance swaps xs (y :: ys) + 1 ≤ n ∨ distance swaps (x :: xs) ys + 1 ≤ n ∨
      distance swaps xs ys + cost x y ≤ n ∨
      (swaps = true ∧ ∃ xs' ys', xs = y :: xs' ∧ ys = x :: ys' ∧
        distance swaps xs' ys' + 1 ≤ n) := by
  rcases h with _ | h | h | h | h | ⟨hswaps, h⟩
  · refine Or.inr (Or.inr (Or.inl ?_))
    rw [cost, if_pos rfl]
    exact distance_le h
  · refine Or.inr (Or.inr (Or.inl ?_))
    have hcost : cost x y ≤ 1 := by
      rw [cost]
      split <;> omega
    exact (Nat.add_le_add_left hcost _).trans (Nat.succ_le_succ (distance_le h))
  · exact Or.inl (Nat.succ_le_succ (distance_le h))
  · exact Or.inr (Or.inl (Nat.succ_le_succ (distance_le h)))
  · exact Or.inr (Or.inr (Or.inr ⟨hswaps, _, _, rfl, rfl, Nat.succ_le_succ (distance_le h)⟩))

/-- **The recurrence**, where no swap comes first. -/
theorem distance_cons_cons
    (hswap : swaps = true → ∀ xs' ys', xs = y :: xs' → ys ≠ x :: ys') :
    distance swaps (x :: xs) (y :: ys) =
      min (min (distance swaps xs (y :: ys) + 1) (distance swaps (x :: xs) ys + 1))
        (distance swaps xs ys + cost x y) := by
  refine le_antisymm (le_min (le_min (distance_cons_left_le swaps x xs _)
    (distance_cons_right_le swaps _ y ys)) (distance_cons_cons_le swaps x y xs ys)) ?_
  rcases (script_distance swaps (x :: xs) (y :: ys)).cons_cons with h | h | h |
    ⟨hswaps, xs', ys', rfl, rfl, -⟩
  · omega
  · omega
  · omega
  grind

/-- **The recurrence**, where a swap may come first. -/
theorem distance_swap (x y : α) (xs ys : List α) :
    distance true (x :: y :: xs) (y :: x :: ys) =
      min (min (min (distance true (y :: xs) (y :: x :: ys) + 1)
          (distance true (x :: y :: xs) (x :: ys) + 1))
        (distance true (y :: xs) (x :: ys) + cost x y)) (distance true xs ys + cost x y) := by
  refine le_antisymm (le_min (le_min (le_min (distance_cons_left_le true x _ _)
    (distance_cons_right_le true _ y _)) (distance_cons_cons_le true x y _ _))
    (distance_swap_le x y xs ys)) ?_
  have hcost : cost x y ≤ 1 := by
    rw [cost]
    split <;> omega
  rcases (script_distance true (x :: y :: xs) (y :: x :: ys)).cons_cons with h | h | h |
    ⟨-, xs', ys', hxs, hys, h⟩
  · omega
  · omega
  · omega
  grind

end Recurrence

/-! ## One edit after another -/

/-- One edit, anywhere. -/
inductive Edit : List α → List α → Prop
  | insert (pre post : List α) (y : α) : Edit (pre ++ post) (pre ++ y :: post)
  | delete (pre post : List α) (x : α) : Edit (pre ++ x :: post) (pre ++ post)
  | substitute (pre post : List α) (x y : α) : Edit (pre ++ x :: post) (pre ++ y :: post)

/-- So many edits, one after another. -/
inductive Edits : List α → List α → ℕ → Prop
  | refl (xs : List α) : Edits xs xs 0
  | step {xs ys zs : List α} {n : ℕ} : Edits xs ys n → Edit ys zs → Edits xs zs (n + 1)

theorem Edit.cons (x : α) (h : Edit xs ys) : Edit (x :: xs) (x :: ys) := by
  rcases h with ⟨pre, post, y⟩ | ⟨pre, post, y⟩ | ⟨pre, post, y, z⟩
  · exact .insert (x :: pre) post y
  · exact .delete (x :: pre) post y
  · exact .substitute (x :: pre) post y z

theorem Edits.cons (x : α) (h : Edits xs ys n) : Edits (x :: xs) (x :: ys) n := by
  induction h with
  | refl => exact .refl _
  | step _ hedit ih => exact .step ih (hedit.cons x)

theorem Script.edits (h : Script false xs ys n) : Edits xs ys n := by
  induction h with
  | nil => exact .refl []
  | keep _ ih => exact ih.cons _
  | substitute _ ih => exact .step (ih.cons _) (.substitute [] _ _ _)
  | delete _ ih => exact .step (ih.cons _) (.delete [] _ _)
  | insert _ ih => exact .step ih (.insert [] _ _)
  | swap hswaps _ _ => exact absurd hswaps Bool.false_ne_true

theorem Script.split (h : Script false xs zs n) :
    ∀ pre post, zs = pre ++ post → ∃ xs₁ xs₂ n₁ n₂, xs = xs₁ ++ xs₂ ∧ n = n₁ + n₂ ∧
      Script false xs₁ pre n₁ ∧ Script false xs₂ post n₂ := by
  induction h with
  | nil =>
      intro pre post hzs
      obtain ⟨rfl, rfl⟩ := List.append_eq_nil_iff.1 hzs.symm
      exact ⟨[], [], 0, 0, rfl, rfl, .nil, .nil⟩
  | @keep x xs ys n h ih =>
      rintro (_ | ⟨y, pre⟩) post hzs
      · obtain rfl : x :: ys = post := hzs
        exact ⟨[], x :: xs, 0, n, rfl, (Nat.zero_add n).symm, .nil, .keep h⟩
      · obtain ⟨rfl, hys⟩ := List.cons.inj hzs
        obtain ⟨xs₁, xs₂, n₁, n₂, rfl, rfl, h₁, h₂⟩ := ih pre post hys
        exact ⟨x :: xs₁, xs₂, n₁, n₂, rfl, rfl, .keep h₁, h₂⟩
  | @substitute x z xs ys n h ih =>
      rintro (_ | ⟨y, pre⟩) post hzs
      · obtain rfl : z :: ys = post := hzs
        exact ⟨[], x :: xs, 0, n + 1, rfl, (Nat.zero_add _).symm, .nil, .substitute h⟩
      · obtain ⟨rfl, hys⟩ := List.cons.inj hzs
        obtain ⟨xs₁, xs₂, n₁, n₂, rfl, rfl, h₁, h₂⟩ := ih pre post hys
        exact ⟨x :: xs₁, xs₂, n₁ + 1, n₂, rfl, by omega, .substitute h₁, h₂⟩
  | @delete x xs ys n h ih =>
      intro pre post hzs
      obtain ⟨xs₁, xs₂, n₁, n₂, rfl, rfl, h₁, h₂⟩ := ih pre post hzs
      exact ⟨x :: xs₁, xs₂, n₁ + 1, n₂, rfl, by omega, .delete h₁, h₂⟩
  | @insert z xs ys n h ih =>
      rintro (_ | ⟨y, pre⟩) post hzs
      · obtain rfl : z :: ys = post := hzs
        exact ⟨[], xs, 0, n + 1, rfl, (Nat.zero_add _).symm, .nil, .insert h⟩
      · obtain ⟨rfl, hys⟩ := List.cons.inj hzs
        obtain ⟨xs₁, xs₂, n₁, n₂, rfl, rfl, h₁, h₂⟩ := ih pre post hys
        exact ⟨xs₁, xs₂, n₁ + 1, n₂, rfl, by omega, .insert h₁, h₂⟩
  | swap hswaps _ _ => exact absurd hswaps Bool.false_ne_true

/-- What comes to one member comes to another, or to none, for one edit more
at most. -/
theorem Script.of_singleton (h : Script false xs [x] n) :
    (∃ m ≤ n + 1, Script false xs [] m) ∧ ∀ y, ∃ m ≤ n + 1, Script false xs [y] m := by
  have hlen := h.length_le.1
  rw [List.length_singleton] at hlen
  refine ⟨⟨_, by omega, .delete_all xs⟩, fun y => ?_⟩
  rcases xs with _ | ⟨z, xs⟩
  · exact ⟨1, by omega, .insert .nil⟩
  · rw [List.length_cons] at hlen
    exact ⟨xs.length + 1, by omega, .substitute (.delete_all xs)⟩

/-- **One edit more** is one more in a script at most. -/
theorem Script.edit (h : Script false xs ys n) (hedit : Edit ys zs) :
    ∃ m ≤ n + 1, Script false xs zs m := by
  rcases hedit with ⟨pre, post, y⟩ | ⟨pre, post, y⟩ | ⟨pre, post, y, z⟩
  · obtain ⟨xs₁, xs₂, n₁, n₂, rfl, rfl, h₁, h₂⟩ := h.split pre post rfl
    exact ⟨_, by omega, h₁.append (.insert h₂)⟩
  all_goals
    obtain ⟨xs₁, xs', n₁, n', rfl, rfl, h₁, h'⟩ := h.split pre (y :: post) rfl
    obtain ⟨xs₂, xs₃, n₂, n₃, rfl, rfl, h₂, h₃⟩ := h'.split [y] post rfl
    obtain ⟨hgone, hother⟩ := h₂.of_singleton
  · obtain ⟨m, hm, hscript⟩ := hgone
    exact ⟨_, by omega, h₁.append (hscript.append h₃)⟩
  · obtain ⟨m, hm, hscript⟩ := hother z
    exact ⟨_, by omega, h₁.append (hscript.append h₃)⟩

/-- **Without swaps the distance is the least number of edits**, one after
another and anywhere. -/
theorem isLeast_edits (xs ys : List α) : IsLeast {n | Edits xs ys n} (distance false xs ys) := by
  refine ⟨(script_distance false xs ys).edits, fun n h => ?_⟩
  have hscript : ∃ m ≤ n, Script false xs ys m := by
    induction h with
    | refl => exact ⟨0, le_rfl, .refl xs⟩
    | step _ hedit ih =>
        obtain ⟨m, hm, hscript⟩ := ih
        grind [Script.edit]
  obtain ⟨m, hm, hscript⟩ := hscript
  exact (distance_le hscript).trans hm

end EditScript

end Laurus
